import Mathlib.Data.Finite.Defs
import Mathlib.Data.List.Basic
import Mathlib.Data.Prod.Lex
import Mathlib.Data.Set.Finite.Lattice
import Mathlib.Order.Preorder.Finite

/-!
# Overlapping numbered logs

Writers of increasing epochs each write consecutively numbered items, from wherever they
take over. What they wrote is kept in pieces, each under its epoch and the number of its
first item. A later epoch supersedes an earlier one from its own first number on.

* `Supplies` says which item a set of pieces gives at a number; there is at most one
  (`Supplies.unique`).
* `Prunable c` are the pieces whose successor, in the order of epoch and first number,
  starts at or below `c + 1`. Removing such pieces changes nothing above `c`
  (`supplies_prune`), although both the pieces and what supersedes them change.
-/

namespace T4.Lib

open List

/-- Items numbered consecutively from `first`. -/
def Numbered {α : Type*} (number : α → ℤ) (first : ℤ) : List α → Prop
  | [] => True
  | a :: rest => number a = first ∧ Numbered number (first + 1) rest

instance decidableNumbered {α : Type*} (number : α → ℤ) :
    (first : ℤ) → (items : List α) → Decidable (Numbered number first items)
  | _, [] => isTrue trivial
  | first, a :: rest =>
    have := decidableNumbered number (first + 1) rest
    inferInstanceAs (Decidable (number a = first ∧ Numbered number (first + 1) rest))

/-- Part of what the writer of an epoch wrote. -/
structure Piece (α : Type*) where
  epoch : ℕ
  first : ℤ
  items : List α
  deriving DecidableEq

namespace Piece

variable {α : Type*} {number : α → ℤ}

/-- Pieces are ordered by epoch, then by first number. -/
def key (p : Piece α) : ℕ ×ₗ ℤ := toLex (p.epoch, p.first)

theorem key_lt {p q : Piece α} :
    p.key < q.key ↔ p.epoch < q.epoch ∨ p.epoch = q.epoch ∧ p.first < q.first :=
  Prod.Lex.toLex_lt_toLex

theorem epoch_le_of_key_lt {p q : Piece α} (less : p.key < q.key) : p.epoch ≤ q.epoch := by
  rcases key_lt.mp less with older | ⟨same, _⟩
  · exact older.le
  · exact same.le

theorem key_inj {p q : Piece α} (same : p.key = q.key) :
    p.epoch = q.epoch ∧ p.first = q.first :=
  Prod.mk.inj (toLex.injective same)

end Piece

variable {α : Type*} {number : α → ℤ} {first : ℤ} {items : List α}

theorem Numbered.first_le (numbered : Numbered number first items) :
    ∀ a ∈ items, first ≤ number a := by
  induction items generalizing first with
  | nil => simp
  | cons a rest ih =>
    intro b mem
    rcases mem_cons.mp mem with rfl | mem
    · exact numbered.1.ge
    · exact (Int.le_add_one le_rfl).trans (ih numbered.2 b mem)

theorem Numbered.eq_of_number (numbered : Numbered number first items) {a b : α} (memA : a ∈ items)
    (memB : b ∈ items) (same : number a = number b) : a = b := by
  induction items generalizing first with
  | nil => cases memA
  | cons c rest ih =>
    have above := numbered.2.first_le
    have here := numbered.1
    rcases mem_cons.mp memA with isA | laterA
    · rcases mem_cons.mp memB with isB | laterB
      · exact isA.trans isB.symm
      · have := above b laterB
        subst isA
        omega
    · have := above a laterA
      rcases mem_cons.mp memB with isB | laterB
      · subst isB
        omega
      · exact ih numbered.2 laterA laterB

theorem Numbered.pairwise (numbered : Numbered number first items) :
    items.Pairwise (fun a b => number a < number b) := by
  induction items generalizing first with
  | nil => exact .nil
  | cons a rest ih =>
    refine pairwise_cons.mpr ⟨?_, ih numbered.2⟩
    intro b mem
    have := numbered.2.first_le b mem
    have := numbered.1
    omega

theorem numbered_append {later : List α} :
    Numbered number first (items ++ later) ↔
      Numbered number first items ∧ Numbered number (first + items.length) later := by
  induction items generalizing first with
  | nil => simp [Numbered]
  | cons a rest ih =>
    have shift : first + 1 + (rest.length : ℤ) = first + ((rest.length + 1 : ℕ) : ℤ) := by
      push_cast
      omega
    rw [cons_append, Numbered, Numbered, ih, and_assoc, length_cons, shift]

theorem Numbered.lt_end (numbered : Numbered number first items) :
    ∀ a ∈ items, number a < first + items.length := by
  induction items generalizing first with
  | nil => simp
  | cons a rest ih =>
    intro b mem
    have here := numbered.1
    rw [length_cons]
    push_cast
    rcases mem_cons.mp mem with rfl | mem
    · omega
    · have := ih numbered.2 b mem
      omega

theorem Numbered.getLast_next (numbered : Numbered number first items) {last : α}
    (isLast : last ∈ items.getLast?) : number last + 1 = first + items.length := by
  obtain ⟨front, rfl⟩ := getLast?_eq_some_iff.mp isLast
  have here := (numbered_append.mp numbered).2.1
  rw [length_append, length_singleton]
  push_cast
  omega

theorem Numbered.exists_number (numbered : Numbered number first items) {n : ℤ} (above : first ≤ n)
    (below : n < first + items.length) : ∃ a ∈ items, number a = n := by
  induction items generalizing first with
  | nil =>
    rw [length_nil] at below
    omega
  | cons a rest ih =>
    rw [length_cons] at below
    push_cast at below
    rcases above.eq_or_lt with rfl | later
    · exact ⟨a, mem_cons_self, numbered.1⟩
    · obtain ⟨b, mem, here⟩ := ih numbered.2 (by omega) (by omega)
      exact ⟨b, mem_cons_of_mem _ mem, here⟩

/-! ## Windows of a numbered log -/

section Windows

variable {α : Type*} {number : α → ℤ} {items : List α} {low high : ℤ}

variable (number) in
/-- The items numbered above `low` and up to `high`. -/
def window (low high : ℤ) (items : List α) : List α :=
  items.filter (fun a => low < number a ∧ number a ≤ high)

theorem mem_window {a : α} :
    a ∈ window number low high items ↔ a ∈ items ∧ low < number a ∧ number a ≤ high := by
  simp [window]

theorem window_self : window number low low items = [] := by
  refine eq_nil_iff_forall_not_mem.mpr ?_
  intro a mem
  obtain ⟨-, above, below⟩ := mem_window.mp mem
  omega

theorem window_append_above {later : List α} (above : ∀ a ∈ later, high < number a) :
    window number low high (items ++ later) = window number low high items := by
  have none : later.filter (fun a => low < number a ∧ number a ≤ high) = [] := by
    refine filter_eq_nil_iff.mpr ?_
    intro a mem
    have := above a mem
    simp only [decide_eq_true_eq]
    omega
  rw [window, filter_append, none, append_nil, window]

theorem eq_of_sorted_number (sorted : items.Pairwise (fun a b => number a < number b)) {a b : α}
    (memA : a ∈ items) (memB : b ∈ items) (same : number a = number b) : a = b := by
  by_contra differ
  have apart := Pairwise.forall_of_forall_of_flip
    (R := fun a b => a ≠ b → number a ≠ number b) (l := items) (by simp)
    (sorted.imp (fun less _ => less.ne)) (sorted.imp (fun less _ => less.ne')) memA memB
  exact apart differ same

/-- In a log with increasing numbers, items of it that are numbered from the end of a window
on are all that the window gains. -/
theorem Numbered.window_extend (sorted : items.Pairwise (fun a b => number a < number b))
    (ordered : low ≤ high) {batch : List α} (numbered : Numbered number (high + 1) batch)
    (sub : ∀ a ∈ batch, a ∈ items) :
    window number low (high + batch.length) items = window number low high items ++ batch := by
  have antisymm : Std.Antisymm (fun a b : α => number a < number b) :=
    ⟨fun a b less more => absurd more less.not_gt⟩
  have irrefl : Std.Irrefl (fun a b : α => number a < number b) := ⟨fun a => lt_irrefl _⟩
  have upTo := numbered.lt_end
  have sortedRight : (window number low high items ++ batch).Pairwise
      (fun a b => number a < number b) := by
    refine pairwise_append.mpr ⟨sorted.filter _, numbered.pairwise, ?_⟩
    intro a old b new
    have := (mem_window.mp old).2.2
    have := numbered.first_le b new
    omega
  refine (sorted.filter _).eq_of_mem_iff sortedRight ?_
  intro a
  rw [mem_append]
  change a ∈ window number low _ items ↔ _
  rw [mem_window, mem_window]
  constructor
  · rintro ⟨mem, above, below⟩
    rcases le_or_gt (number a) high with old | new
    · exact Or.inl ⟨mem, above, old⟩
    · obtain ⟨b, isIn, same⟩ := numbered.exists_number (n := number a) (by omega) (by omega)
      rw [← eq_of_sorted_number sorted (sub b isIn) mem same]
      exact Or.inr isIn
  · rintro (⟨mem, above, below⟩ | new)
    · exact ⟨mem, above, by omega⟩
    · have := numbered.first_le a new
      have := upTo a new
      exact ⟨sub a new, by omega, by omega⟩

end Windows

section Pieces

variable {α : Type*} (number : α → ℤ)

/-- Pieces under their keys: numbered from their first item on, and the pieces of one
epoch do not overlap. -/
structure WellNamed (pieces : List (Piece α)) : Prop where
  sorted : pieces.Pairwise (fun p q => p.key < q.key)
  numbered : ∀ p ∈ pieces, Numbered number p.first p.items
  apart : ∀ p ∈ pieces, ∀ q ∈ pieces, p.epoch = q.epoch → p.first < q.first →
    ∀ a ∈ p.items, number a < q.first

/-- The pieces give the item `a` at its number: no later epoch starts at or below it. -/
def Supplies (pieces : List (Piece α)) (a : α) : Prop :=
  ∃ p ∈ pieces, a ∈ p.items ∧ ∀ q ∈ pieces, p.epoch < q.epoch → number a < q.first

/-- The next piece starts at or below `c + 1`. -/
def Prunable (c : ℤ) (pieces : List (Piece α)) (p : Piece α) : Prop :=
  ∃ next ∈ pieces, p.key < next.key ∧ next.first - 1 ≤ c ∧
    ∀ q ∈ pieces, p.key < q.key → next.key ≤ q.key

variable {number} {pieces : List (Piece α)}

variable {p : Piece α} {a : α} {c : ℤ}

theorem WellNamed.eq_of_key (named : WellNamed number pieces) {q : Piece α} (memP : p ∈ pieces)
    (memQ : q ∈ pieces) (same : p.key = q.key) : p = q := by
  have nodup : (pieces.map Piece.key).Nodup :=
    (pairwise_map.mpr named.sorted).imp (fun less => less.ne)
  exact inj_on_of_nodup_map nodup memP memQ same

theorem WellNamed.sublist (named : WellNamed number pieces) {kept : List (Piece α)}
    (sub : kept.Sublist pieces) : WellNamed number kept :=
  ⟨named.sorted.sublist sub, fun p mem => named.numbered p (sub.subset mem),
    fun p memP q memQ => named.apart p (sub.subset memP) q (sub.subset memQ)⟩

theorem WellNamed.supplier_unique (named : WellNamed number pieces) {q : Piece α} {b : α}
    (memP : p ∈ pieces) (inP : a ∈ p.items)
    (newestP : ∀ r ∈ pieces, p.epoch < r.epoch → number a < r.first) (memQ : q ∈ pieces)
    (inQ : b ∈ q.items) (newestQ : ∀ r ∈ pieces, q.epoch < r.epoch → number b < r.first)
    (same : number a = number b) : p = q := by
  have firstP := (named.numbered p memP).first_le a inP
  have firstQ := (named.numbered q memQ).first_le b inQ
  -- A later epoch than the supplier's starts above the item.
  have sameEpoch : p.epoch = q.epoch := by
    rcases lt_trichotomy p.epoch q.epoch with older | same | newer
    · have := newestP q memQ older
      omega
    · exact same
    · have := newestQ p memP newer
      omega
  -- In one epoch the pieces do not overlap.
  have sameFirst : p.first = q.first := by
    rcases lt_trichotomy p.first q.first with below | same | above
    · have := named.apart p memP q memQ sameEpoch below a inP
      omega
    · exact same
    · have := named.apart q memQ p memP sameEpoch.symm above b inQ
      omega
  refine named.eq_of_key memP memQ ?_
  rw [Piece.key, Piece.key, sameEpoch, sameFirst]

theorem Supplies.unique (named : WellNamed number pieces) {b : α}
    (givesA : Supplies number pieces a) (givesB : Supplies number pieces b)
    (same : number a = number b) : a = b := by
  obtain ⟨p, memP, inP, newestP⟩ := givesA
  obtain ⟨q, memQ, inQ, newestQ⟩ := givesB
  obtain rfl := named.supplier_unique memP inP newestP memQ inQ newestQ same
  exact (named.numbered p memP).eq_of_number inP inQ same

/-! ## Pruning -/

/-- Behind a prunable piece there is one that is not, and that starts at or below
`c + 1` as well; no piece after it does. -/
theorem Prunable.exists_kept (prunable : Prunable c pieces p) :
    ∃ q ∈ pieces, p.key < q.key ∧ q.first - 1 ≤ c ∧ ¬ Prunable c pieces q ∧
      ∀ r ∈ pieces, q.key < r.key → c < r.first - 1 := by
  obtain ⟨next, memNext, less, low, _⟩ := prunable
  let candidates : Set (Piece α) := fun q => q ∈ pieces ∧ p.key < q.key ∧ q.first - 1 ≤ c
  have finite : candidates.Finite :=
    (finite_toSet pieces).subset (fun q isCandidate => isCandidate.1)
  obtain ⟨q, ⟨memQ, above, lowQ⟩, maximal⟩ :=
    finite.exists_maximalFor Piece.key candidates ⟨next, memNext, less, low⟩
  have last : ∀ r ∈ pieces, q.key < r.key → c < r.first - 1 := by
    intro r memR later
    by_contra notAbove
    have back := maximal ⟨memR, above.trans later, not_lt.mp notAbove⟩ later.le
    exact absurd later (not_lt.mpr back)
  refine ⟨q, memQ, above, lowQ, ?_, last⟩
  rintro ⟨r, memR, later, lowR, _⟩
  exact absurd (last r memR later) (not_lt.mpr lowR)

theorem Prunable.le_of_supplies (named : WellNamed number pieces) (memP : p ∈ pieces)
    (prunable : Prunable c pieces p) (inP : a ∈ p.items)
    (newest : ∀ q ∈ pieces, p.epoch < q.epoch → number a < q.first) : number a ≤ c := by
  obtain ⟨next, memNext, less, low, _⟩ := prunable
  have below : number a < next.first := by
    rcases Piece.key_lt.mp less with older | ⟨same, first⟩
    · exact newest next memNext older
    · exact named.apart p memP next memNext same first a inP
  omega

/-- **Pruning.** Removing prunable pieces changes nothing above `c`. -/
theorem supplies_prune {kept : List (Piece α)} (named : WellNamed number pieces)
    (sub : kept ⊆ pieces) (gone : ∀ p ∈ pieces, p ∉ kept → Prunable c pieces p)
    (above : c < number a) : Supplies number kept a ↔ Supplies number pieces a := by
  constructor
  · rintro ⟨p, memP, inP, newest⟩
    refine ⟨p, sub memP, inP, ?_⟩
    intro q memQ newer
    by_cases inKept : q ∈ kept
    · exact newest q inKept newer
    · -- The piece that superseded is gone, but a kept one of the same or a later epoch
      -- starts at or below the cut.
      obtain ⟨r, memR, behind, low, notPrunable, _⟩ := (gone q memQ inKept).exists_kept
      have keptR : r ∈ kept := by
        by_contra absent
        exact notPrunable (gone r memR absent)
      have := newest r keptR (newer.trans_le (Piece.epoch_le_of_key_lt behind))
      omega
  · rintro ⟨p, memP, inP, newest⟩
    refine ⟨p, ?_, inP, fun q memQ newer => newest q (sub memQ) newer⟩
    by_contra absent
    have := (gone p memP absent).le_of_supplies named memP inP newest
    omega

end Pieces

end T4.Lib
