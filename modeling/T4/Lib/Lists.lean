import Mathlib.Data.List.Lex

/-!
# Lists

Facts about lists that Mathlib does not have in this form.
-/

namespace T4.Lib

variable {α β : Type*}

theorem append_left_lt_iff [Preorder α] (front : List α) {a b : List α} :
    front ++ a < front ++ b ↔ a < b := by
  induction front with
  | nil => rfl
  | cons x front ih =>
    simp only [List.cons_append, List.cons_lt_cons_iff, lt_self_iff_false, true_and, false_or, ih]

theorem filterMap_eq_append (f : α → Option β) (a : α) (rest : List α) :
    (a :: rest).filterMap f = (f a).toList ++ rest.filterMap f := by
  cases found : f a <;> simp [found]

theorem map_eq_self_iff {f : α → α} {l : List α} : l.map f = l ↔ ∀ a ∈ l, f a = a := by
  conv_lhs => rw [← List.map_id l, List.map_map, Function.comp_id]
  exact List.map_inj_left

theorem option_map_eq_self_iff {f : α → α} {o : Option α} : o.map f = o ↔ ∀ a ∈ o, f a = a := by
  cases o <;> simp

/-- What a loop establishes if each of its turns adds one condition. -/
theorem foldl_iff {P : β → Prop} {Q : α → Prop} {f : β → α → β}
    (step : ∀ b a, P (f b a) ↔ P b ∧ Q a) (l : List α) (b : β) :
    P (l.foldl f b) ↔ P b ∧ ∀ a ∈ l, Q a := by
  induction l generalizing b with
  | nil => simp
  | cons a l ih => rw [List.foldl_cons, ih, step, List.forall_mem_cons, and_assoc]

theorem split_append {old new earlier later : List α} {a : α}
    (split : old ++ new = earlier ++ a :: later) :
    (∃ rest, old = earlier ++ a :: rest) ∨ a ∈ new := by
  rcases List.append_eq_append_iff.mp split with ⟨front, -, isNew⟩ | ⟨back, isOld, rest⟩
  · right
    rw [isNew]
    simp
  · cases back with
    | nil =>
      right
      rw [List.nil_append] at rest
      rw [← rest]
      simp
    | cons b back =>
      obtain ⟨rfl, -⟩ := List.cons_eq_cons.mp rest
      exact Or.inl ⟨back, isOld⟩

section Cut

variable {f : α → Int} {l : List α}

/-- A list that is sorted by `f`, cut at `a`. -/
theorem filter_lt_append_filter_le (sorted : l.Pairwise (fun x y => f x ≤ f y)) (a : Int) :
    l.filter (fun x => f x < a) ++ l.filter (fun x => a ≤ f x) = l := by
  induction l with
  | nil => rfl
  | cons x rest ih =>
    obtain ⟨least, sorted⟩ := List.pairwise_cons.mp sorted
    by_cases early : f x < a
    · simp only [List.filter_cons, early, Int.not_le.mpr early, decide_true, decide_false, if_true,
        Bool.false_eq_true, if_false, List.cons_append, ih sorted]
    · -- Everything from here on is late.
      have late : ∀ y ∈ x :: rest, a ≤ f y := by
        intro y mem
        rcases List.mem_cons.mp mem with rfl | later
        · omega
        · have := least y later
          omega
      have noneEarly : (x :: rest).filter (fun y => f y < a) = [] := by
        rw [List.filter_eq_nil_iff]
        intro y mem
        simpa using late y mem
      have allLate : (x :: rest).filter (fun y => a ≤ f y) = x :: rest := by
        rw [List.filter_eq_self]
        intro y mem
        simpa using late y mem
      rw [noneEarly, allLate, List.nil_append]

theorem filter_lt_prefix (sorted : l.Pairwise (fun x y => f x ≤ f y)) (a : Int) :
    l.filter (fun x => f x < a) <+: l :=
  ⟨_, filter_lt_append_filter_le sorted a⟩

end Cut

end T4.Lib
