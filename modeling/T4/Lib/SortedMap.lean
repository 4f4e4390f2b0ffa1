import Mathlib.Data.List.Sort
import Mathlib.Order.Lattice

/-!
# Ordered key-value maps

The logical content of an ordered key-value engine: a finite list of bindings,
strictly sorted by key. The order is a field of the structure, so every map that
can be written down iterates in key order.

Lookups after a write are decided by `get_insert` and `get_erase`; iterating over
a half-open key range is `range`, and `mem_range` reduces membership in it to
lookups. A write batch is a list of `Write`s that takes effect as a whole.
-/

namespace T4.Lib

/-- A finite map as a strictly sorted list of bindings. -/
structure SortedMap (κ ν : Type*) [LinearOrder κ] where
  entries : List (κ × ν)
  sorted : entries.Pairwise (fun a b => a.1 < b.1)

namespace SortedMap

variable {κ ν : Type*} [LinearOrder κ]

def empty : SortedMap κ ν := ⟨[], List.Pairwise.nil⟩

/-- The value bound to `k`. -/
def get (m : SortedMap κ ν) (k : κ) : Option ν :=
  (m.entries.find? (fun e => e.1 = k)).map Prod.snd

/-- Bind `k` to `v` in a sorted list of bindings. -/
def insertEntry (k : κ) (v : ν) : List (κ × ν) → List (κ × ν)
  | [] => [(k, v)]
  | e :: rest =>
    if k < e.1 then (k, v) :: e :: rest
    else if k = e.1 then (k, v) :: rest
    else e :: insertEntry k v rest

variable {k : κ} {v : ν} {m : SortedMap κ ν} {front : List (κ × ν)}

theorem mem_insertEntry {entries : List (κ × ν)} {a : κ × ν} (mem : a ∈ insertEntry k v entries) :
    a = (k, v) ∨ a ∈ entries := by
  induction entries with
  | nil => simpa [insertEntry] using mem
  | cons e rest ih =>
    unfold insertEntry at mem
    split_ifs at mem <;> grind

theorem insertEntry_sorted {entries : List (κ × ν)}
    (sorted : entries.Pairwise (fun a b => a.1 < b.1)) :
    (insertEntry k v entries).Pairwise (fun a b => a.1 < b.1) := by
  induction entries with
  | nil => simp [insertEntry]
  | cons e rest ih =>
    obtain ⟨headLt, restSorted⟩ := List.pairwise_cons.mp sorted
    unfold insertEntry
    split_ifs with less same
    · refine List.pairwise_cons.mpr ⟨?_, sorted⟩
      intro a mem
      rcases List.mem_cons.mp mem with rfl | mem
      · exact less
      · exact less.trans (headLt a mem)
    · refine List.pairwise_cons.mpr ⟨?_, restSorted⟩
      intro a mem
      exact same ▸ headLt a mem
    · refine List.pairwise_cons.mpr ⟨?_, ih restSorted⟩
      intro a mem
      rcases mem_insertEntry mem with rfl | mem
      · exact lt_of_le_of_ne (not_lt.mp less) (Ne.symm same)
      · exact headLt a mem

/-- The map with `k` bound to `v`. -/
def insert (m : SortedMap κ ν) (k : κ) (v : ν) : SortedMap κ ν :=
  ⟨insertEntry k v m.entries, insertEntry_sorted m.sorted⟩

/-- The map without a binding for `k`. -/
def erase (m : SortedMap κ ν) (k : κ) : SortedMap κ ν :=
  ⟨m.entries.filter (fun e => e.1 ≠ k), m.sorted.filter _⟩

/-- The map without bindings for `keys`. -/
def eraseMany (m : SortedMap κ ν) (keys : List κ) : SortedMap κ ν :=
  ⟨m.entries.filter (fun e => e.1 ∉ keys), m.sorted.filter _⟩

/-- The bindings with `lo ≤ key < hi`, in key order. -/
def range (m : SortedMap κ ν) (lo hi : κ) : List (κ × ν) :=
  m.entries.filter (fun e => lo ≤ e.1 ∧ e.1 < hi)

/-! ## Lookups -/

@[simp]
theorem get_empty (k : κ) : (empty : SortedMap κ ν).get k = none := rfl

theorem mem_entries_iff : (k, v) ∈ m.entries ↔ m.get k = some v := by
  obtain ⟨entries, sorted⟩ := m
  unfold get
  induction entries with
  | nil => simp
  | cons e rest ih =>
    obtain ⟨headLt, restSorted⟩ := List.pairwise_cons.mp sorted
    by_cases same : e.1 = k
    · have absent : (k, v) ∉ rest := by
        intro mem
        exact (headLt _ mem).ne same
      obtain ⟨key, value⟩ := e
      subst same
      simp [absent, eq_comm]
    · have other : (k, v) ≠ e := by
        rintro rfl
        exact same rfl
      simpa [same, other] using ih restSorted

theorem get_insert [DecidableEq κ] (m : SortedMap κ ν) (k j : κ) (v : ν) :
    (m.insert k v).get j = if j = k then some v else m.get j := by
  obtain ⟨entries, sorted⟩ := m
  unfold get insert
  induction entries with
  | nil => by_cases same : k = j <;> simp [insertEntry, same, eq_comm]
  | cons e rest ih =>
    obtain ⟨headLt, restSorted⟩ := List.pairwise_cons.mp sorted
    have rest := ih restSorted
    simp only [insertEntry] at rest ⊢
    split_ifs <;> grind

theorem get_erase [DecidableEq κ] (m : SortedMap κ ν) (k j : κ) :
    (m.erase k).get j = if j = k then none else m.get j := by
  unfold get erase
  rw [List.find?_filter]
  split_ifs with same
  · subst same
    simp
  · congr 2
    funext e
    grind

/-- A binding is met by the iterator over `[lo, hi)` exactly if it is in the map
and its key is in the range. -/
theorem mem_range {lo hi k : κ} : (k, v) ∈ m.range lo hi ↔ m.get k = some v ∧ lo ≤ k ∧ k < hi := by
  unfold range
  rw [List.mem_filter, mem_entries_iff]
  simp

theorem range_sorted (m : SortedMap κ ν) (lo hi : κ) :
    (m.range lo hi).Pairwise (fun a b => a.1 < b.1) :=
  m.sorted.filter _

theorem eq_of_sorted {l l' : List (κ × ν)} (sorted : l.Pairwise (fun a b => a.1 < b.1))
    (sorted' : l'.Pairwise (fun a b => a.1 < b.1)) (same : ∀ k v, (k, v) ∈ l ↔ (k, v) ∈ l') :
    l = l' := by
  have antisymm : Std.Antisymm (fun a b : κ × ν => a.1 < b.1) :=
    ⟨fun a b less more => absurd more less.not_gt⟩
  have irrefl : Std.Irrefl (fun a b : κ × ν => a.1 < b.1) := ⟨fun a less => lt_irrefl a.1 less⟩
  exact sorted.eq_of_mem_iff sorted' (fun a => same a.1 a.2)

theorem eq_of_get {m m' : SortedMap κ ν} (same : ∀ k, m.get k = m'.get k) : m = m' := by
  have entries : m.entries = m'.entries := by
    refine eq_of_sorted m.sorted m'.sorted ?_
    intro k v
    rw [mem_entries_iff, mem_entries_iff, same]
  cases m
  cases m'
  cases entries
  rfl

instance [DecidableEq ν] : DecidableEq (SortedMap κ ν) := fun m m' =>
  decidable_of_iff (m.entries = m'.entries)
    ⟨fun same => by cases m; cases m'; cases same; rfl, fun same => same ▸ rfl⟩

/-- The map with `f` applied to every value. -/
def mapValues {μ : Type*} (m : SortedMap κ ν) (f : ν → μ) : SortedMap κ μ :=
  ⟨m.entries.map (fun e => (e.1, f e.2)), List.pairwise_map.mpr m.sorted⟩

theorem get_mapValues {μ : Type*} (m : SortedMap κ ν) (f : ν → μ) (k : κ) :
    (m.mapValues f).get k = (m.get k).map f := by
  unfold get mapValues
  rw [List.find?_map, Option.map_map, Option.map_map]
  rfl

theorem insertEntry_append (below : ∀ e ∈ front, e.1 < k) (rest : List (κ × ν)) :
    insertEntry k v (front ++ rest) = front ++ insertEntry k v rest := by
  induction front with
  | nil => rfl
  | cons e front ih =>
    have less := below e (by simp)
    rw [List.cons_append, insertEntry, if_neg less.not_gt, if_neg less.ne',
      ih (fun other mem => below other (List.mem_cons_of_mem _ mem))]
    rfl

theorem entries_insert_above (v : ν) (below : ∀ e ∈ m.entries, e.1 < k) :
    (m.insert k v).entries = m.entries ++ [(k, v)] := by
  have added := insertEntry_append (v := v) below []
  rw [List.append_nil] at added
  exact added

theorem entries_insert_last {old : ν} (v : ν) (last : m.entries = front ++ [(k, old)]) :
    (m.insert k v).entries = front ++ [(k, v)] := by
  have sorted := m.sorted
  rw [last, List.pairwise_append] at sorted
  have replaced := insertEntry_append (v := v) (fun e mem => sorted.2.2 e mem (k, old) (by simp))
    [(k, old)]
  rw [← last] at replaced
  refine replaced.trans ?_
  rw [insertEntry, if_neg (lt_irrefl k), if_pos rfl]

theorem get_of_last (last : m.entries = front ++ [(k, v)]) : m.get k = some v := by
  rw [← mem_entries_iff, last]
  simp

theorem entries_eraseMany_front {front back : List (κ × ν)} (split : m.entries = front ++ back) :
    (m.eraseMany (front.map Prod.fst)).entries = back := by
  have sorted := m.sorted
  rw [split, List.pairwise_append] at sorted
  have kept : (m.eraseMany (front.map Prod.fst)).entries =
      (front ++ back).filter (fun e => e.1 ∉ front.map Prod.fst) := by
    rw [← split]
    rfl
  rw [kept, List.filter_append]
  have gone : front.filter (fun e => e.1 ∉ front.map Prod.fst) = [] := by
    rw [List.filter_eq_nil_iff]
    intro e mem
    simpa using ⟨e.2, mem⟩
  have stays : back.filter (fun e => e.1 ∉ front.map Prod.fst) = back := by
    rw [List.filter_eq_self]
    intro e mem
    rw [decide_eq_true_eq]
    intro found
    obtain ⟨other, isFront, same⟩ := List.mem_map.mp found
    exact (sorted.2.2 other isFront e mem).ne same
  rw [gone, stays, List.nil_append]

theorem get_eraseMany {keys : List κ} (absent : k ∉ keys) (found : m.get k = some v) :
    (m.eraseMany keys).get k = some v := by
  rw [← mem_entries_iff] at found ⊢
  exact List.mem_filter.mpr ⟨found, by simpa using absent⟩

/-- A statement about all bindings can be checked on the entries. -/
instance decidableForallGet {P : κ → ν → Prop} [∀ k v, Decidable (P k v)] :
    Decidable (∀ k v, m.get k = some v → P k v) :=
  decidable_of_iff (∀ e ∈ m.entries, P e.1 e.2)
    ⟨fun check k v found => check (k, v) (mem_entries_iff.mpr found),
      fun all e mem => all e.1 e.2 (mem_entries_iff.mp mem)⟩

/-! ## Write batches -/

inductive Write (κ ν : Type*)
  | set (k : κ) (v : ν)
  | delete (k : κ)
  deriving DecidableEq

def write (m : SortedMap κ ν) : Write κ ν → SortedMap κ ν
  | .set k v => m.insert k v
  | .delete k => m.erase k

/-- Commit a batch: its operations take effect in order. -/
def commit (m : SortedMap κ ν) (batch : List (Write κ ν)) : SortedMap κ ν :=
  batch.foldl write m

@[simp]
theorem write_set (m : SortedMap κ ν) (k : κ) (v : ν) : m.write (.set k v) = m.insert k v := rfl

@[simp]
theorem write_delete (m : SortedMap κ ν) (k : κ) : m.write (.delete k) = m.erase k := rfl

theorem commit_cons (m : SortedMap κ ν) (op : Write κ ν) (rest : List (Write κ ν)) :
    m.commit (op :: rest) = (m.write op).commit rest := rfl

@[simp]
theorem commit_nil (m : SortedMap κ ν) : m.commit [] = m := rfl

@[simp]
theorem commit_append (m : SortedMap κ ν) (first second : List (Write κ ν)) :
    m.commit (first ++ second) = (m.commit first).commit second :=
  List.foldl_append

theorem get_commit_of_no_set [DecidableEq κ] (m : SortedMap κ ν) {batch : List (Write κ ν)}
    (noSet : ∀ v, Write.set k v ∉ batch) :
    (m.commit batch).get k = m.get k ∨
      (m.commit batch).get k = none ∧ Write.delete k ∈ batch := by
  induction batch generalizing m with
  | nil => exact Or.inl rfl
  | cons op rest ih =>
    rw [commit_cons]
    rcases ih (m.write op) (fun v mem => noSet v (List.mem_cons_of_mem op mem)) with same | gone
    · rw [same]
      cases op with
      | set j v =>
        have apart : k ≠ j := fun hit => noSet v (by simp [hit])
        left
        rw [write_set, get_insert, if_neg apart]
      | delete j =>
        rw [write_delete, get_erase]
        by_cases hit : k = j
        · right
          simp [hit]
        · left
          rw [if_neg hit]
    · exact Or.inr ⟨gone.1, List.mem_cons_of_mem op gone.2⟩

theorem get_commit_source [DecidableEq κ] (m : SortedMap κ ν) {batch : List (Write κ ν)}
    (held : (m.commit batch).get k = some v) : m.get k = some v ∨ .set k v ∈ batch := by
  induction batch generalizing m with
  | nil => exact Or.inl held
  | cons op rest ih =>
    rw [commit_cons] at held
    rcases ih (m.write op) held with before | later
    · cases op with
      | set j w =>
        rw [write_set, get_insert] at before
        split at before
        · rename_i hit
          cases before
          exact Or.inr (by simp [hit])
        · exact Or.inl before
      | delete j =>
        rw [write_delete, get_erase] at before
        split at before
        · cases before
        · exact Or.inl before
    · exact Or.inr (List.mem_cons_of_mem op later)

theorem get_commit_deletes [DecidableEq κ] (m : SortedMap κ ν) (keys : List κ) (j : κ) :
    (m.commit (keys.map .delete)).get j = if j ∈ keys then none else m.get j := by
  induction keys generalizing m with
  | nil => simp
  | cons k rest ih =>
    rw [List.map_cons, commit_cons, write_delete, ih, get_erase]
    by_cases same : j = k <;> by_cases later : j ∈ rest <;> simp [same, later]

end SortedMap

end T4.Lib
