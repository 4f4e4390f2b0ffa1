import Mathlib.Data.List.Basic

/-!
# Programs over an environment

A `Prog` asks its environment for something, goes on with the answer, and returns or
fails. The environment is a relation: `serves q a w` says that `q` can be answered by
`a`, and that serving it has the effects `w`. Nothing relates the answers to two
questions, so anything may happen in between.

* `Prog.Runs` is what a program can do: its result and all effects, in order.
* `Prog.eval` is the run against one environment that answers by a function.
-/

namespace T4.Lib

theorem bind_eq_ok {ε α β : Type} {x : Except ε α} {f : α → Except ε β} {r : β}
    (done : x >>= f = .ok r) : ∃ a, x = .ok a ∧ f a = .ok r := by
  cases x with
  | error failed => cases done
  | ok a => exact ⟨a, rfl, done⟩

theorem exists_ok {ε α : Type*} {x : Except ε α} {P : α → Prop} (isOk : x.isOk = true)
    (follows : ∀ a, x = .ok a → P a) : ∃ a, x = .ok a ∧ P a := by
  cases x with
  | error failed => cases isOk
  | ok a => exact ⟨a, rfl, follows a rfl⟩

theorem exists_ok_of_eval {ε α : Type*} {x : Except ε α} {P : α → Prop} [DecidablePred P]
    (evaluated : x.toOption.any (fun a => P a) = true) : ∃ a, x = .ok a ∧ P a := by
  cases x with
  | error failed => cases evaluated
  | ok a => exact ⟨a, rfl, of_decide_eq_true evaluated⟩

/-- A program that asks questions `Q`, fails with an `ε` and returns an `α`. -/
inductive Prog (Q : Type) (A : Q → Type) (ε α : Type)
  | pure (a : α)
  | fail (e : ε)
  | call (q : Q) (next : A q → Prog Q A ε α)

namespace Prog

variable {Q : Type} {A : Q → Type} {ε α β κ : Type}

def bind : Prog Q A ε α → (α → Prog Q A ε β) → Prog Q A ε β
  | .pure a, f => f a
  | .fail e, _ => .fail e
  | .call q next, f => .call q (fun a => (next a).bind f)

instance : Monad (Prog Q A ε) where
  pure := .pure
  bind := bind

def ask (q : Q) : Prog Q A ε (A q) := .call q .pure

/-- Go on with a result, or fail with its error. -/
def ofExcept : Except ε α → Prog Q A ε α
  | .ok a => .pure a
  | .error e => .fail e

/-! ## Runs -/

variable {serves : (q : Q) → A q → List κ → Prop}

/-- The run of a program whose environment does not change while it runs. -/
def eval (serve : (q : Q) → A q × List κ) : Prog Q A ε α → Except ε α × List κ
  | .pure a => (.ok a, [])
  | .fail e => (.error e, [])
  | .call q next =>
    let (r, w) := eval serve (next (serve q).1)
    (r, (serve q).2 ++ w)

variable {serve : (q : Q) → A q × List κ}

@[simp]
theorem eval_ask_bind (q : Q) (f : A q → Prog Q A ε α) :
    eval serve (ask q >>= f) =
      ((eval serve (f (serve q).1)).1, (serve q).2 ++ (eval serve (f (serve q).1)).2) := rfl

theorem eval_bind {p : Prog Q A ε α} {a : α} {w : List κ} (first : eval serve p = (.ok a, w))
    (f : α → Prog Q A ε β) :
    eval serve (p >>= f) = ((eval serve (f a)).1, w ++ (eval serve (f a)).2) := by
  induction p generalizing w with
  | pure b =>
    cases first
    rfl
  | fail e => cases first
  | call q next ih =>
    obtain ⟨result, effects⟩ := Prod.mk.inj first
    have rest := ih (serve q).1 (Prod.ext result rfl)
    change ((eval serve (next (serve q).1 >>= f)).1,
      (serve q).2 ++ (eval serve (next (serve q).1 >>= f)).2) = _
    rw [rest, ← effects, List.append_assoc]

end Prog

end T4.Lib
