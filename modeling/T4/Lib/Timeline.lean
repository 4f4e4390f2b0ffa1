import Mathlib.Data.Finset.Sort
import T4.Lib.SortedMap

/-!
# Timelines: multi-version maps

A timeline is the list of changes a versioned map went through: at a revision, a
key gets a value or is deleted. The value of a key as of a revision is the one
its last change up to that revision left behind (`valueAt`), and `liveAt` is the
whole map as of a revision.

Compaction thins a timeline. `Thins W` says which changes may be missing: those
with a later change of the same key at or below the watermark `W`. Reads at or
above the watermark cannot tell the difference (`Thins.valueAt`).
-/

namespace T4.Lib

open List

/-- At revision `rev`, `key` got a value (`some`) or was deleted (`none`). -/
structure Change (κ ν : Type*) where
  rev : Int
  key : κ
  value : Option ν

namespace Timeline

variable {κ ν : Type*} [LinearOrder κ]

/-- The changes of one key carry increasing revisions. -/
def Ordered (cs : List (Change κ ν)) : Prop :=
  cs.Pairwise (fun a b => a.key = b.key → a.rev < b.rev)

/-- The last change of `k` at or below revision `t`. -/
def lastChange (cs : List (Change κ ν)) (k : κ) (t : Int) : Option (Change κ ν) :=
  cs.reverse.find? (fun c => c.key = k ∧ c.rev ≤ t)

/-- The value of `k` as of revision `t`. -/
def valueAt (cs : List (Change κ ν)) (k : κ) (t : Int) : Option ν :=
  (lastChange cs k t).bind Change.value

/-- Every key that was ever changed, in order. -/
def keys (cs : List (Change κ ν)) : List κ :=
  (cs.map Change.key).toFinset.sort (· ≤ ·)

/-- The map as of revision `t`, in key order. -/
def liveAt (cs : List (Change κ ν)) (t : Int) : List (κ × ν) :=
  (keys cs).filterMap (fun k => (valueAt cs k t).map (k, ·))

@[simp]
theorem valueAt_nil (k : κ) (t : Int) : valueAt ([] : List (Change κ ν)) k t = none := rfl

theorem valueAt_append_singleton (cs : List (Change κ ν)) (c : Change κ ν) (k : κ) (t : Int) :
    valueAt (cs ++ [c]) k t = if c.key = k ∧ c.rev ≤ t then c.value else valueAt cs k t := by
  unfold valueAt lastChange
  rw [reverse_append, reverse_singleton, singleton_append, find?_cons]
  by_cases hit : c.key = k ∧ c.rev ≤ t
  · simp [hit]
  · simp [hit]

theorem valueAt_append (cs new : List (Change κ ν)) (k : κ) (t : Int) :
    valueAt (cs ++ new) k t =
      if ∃ c ∈ new, c.key = k ∧ c.rev ≤ t then valueAt new k t else valueAt cs k t := by
  unfold valueAt lastChange
  rw [reverse_append, find?_append]
  split
  · rename_i hit
    obtain ⟨c, mem, here⟩ := hit
    have found : (new.reverse.find? (fun c => c.key = k ∧ c.rev ≤ t)).isSome := by
      rw [find?_isSome]
      exact ⟨c, mem_reverse.mpr mem, by simpa using here⟩
    obtain ⟨last, isLast⟩ := Option.isSome_iff_exists.mp found
    rw [isLast, Option.some_or]
  · rename_i miss
    have none : new.reverse.find? (fun c => c.key = k ∧ c.rev ≤ t) = none := by
      rw [find?_eq_none]
      intro c mem here
      exact miss ⟨c, mem_reverse.mp mem, by simpa using here⟩
    rw [none, Option.none_or]

variable {k : κ} {t : Int} {cs : List (Change κ ν)}

theorem valueAt_append_of_not_mem (cs new : List (Change κ ν)) (t : Int)
    (absent : ∀ c ∈ new, c.key ≠ k) : valueAt (cs ++ new) k t = valueAt cs k t := by
  induction new using reverseRecOn with
  | nil => rw [append_nil]
  | append_singleton new c ih =>
    rw [← append_assoc, valueAt_append_singleton, if_neg (fun hit => absent c (by simp) hit.1),
      ih (fun other mem => absent other (by simp [mem]))]

theorem valueAt_append_of_mem (cs : List (Change κ ν)) {new : List (Change κ ν)} {c : Change κ ν}
    (mem : c ∈ new) (distinct : (new.map Change.key).Nodup) (upTo : c.rev ≤ t) :
    valueAt (cs ++ new) c.key t = c.value := by
  obtain ⟨front, back, rfl⟩ := append_of_mem mem
  have apart : ∀ other ∈ back, other.key ≠ c.key := by
    intro other inBack same
    rw [map_append, map_cons, nodup_append, nodup_cons] at distinct
    exact distinct.2.1.1 (mem_map.mpr ⟨other, inBack, same⟩)
  have regroup : cs ++ (front ++ c :: back) = (cs ++ front ++ [c]) ++ back := by simp
  rw [regroup, valueAt_append_of_not_mem _ _ t apart, valueAt_append_singleton,
    if_pos ⟨rfl, upTo⟩]

theorem valueAt_congr (cs : List (Change κ ν)) (k : κ) {t t' : Int}
    (same : ∀ c ∈ cs, c.rev ≤ t ↔ c.rev ≤ t') : valueAt cs k t = valueAt cs k t' := by
  induction cs using reverseRecOn with
  | nil => rfl
  | append_singleton cs c ih =>
    have here := same c (by simp)
    have rest := ih (fun other mem => same other (by simp [mem]))
    rw [valueAt_append_singleton, valueAt_append_singleton, rest]
    simp only [here]

theorem mem_keys : k ∈ keys cs ↔ ∃ c ∈ cs, c.key = k := by
  simp [keys]

theorem lastChange_mem {c : Change κ ν} (last : lastChange cs k t = some c) :
    c ∈ cs ∧ c.key = k ∧ c.rev ≤ t := by
  have mem := mem_of_find?_eq_some last
  have hit := find?_some last
  simp at mem hit
  exact ⟨mem, hit⟩

theorem Ordered.le_lastChange (ordered : Ordered cs) {c other : Change κ ν}
    (last : lastChange cs k t = some c) (mem : other ∈ cs) (same : other.key = k)
    (below : other.rev ≤ t) : other.rev ≤ c.rev := by
  unfold lastChange at last
  obtain ⟨hit, before, after, split, none⟩ := find?_eq_some_iff_append.mp last
  have inReverse : other ∈ cs.reverse := mem_reverse.mpr mem
  have reversed : cs.reverse.Pairwise (fun a b => b.key = a.key → b.rev < a.rev) :=
    pairwise_reverse.mpr ordered
  rw [split] at inReverse reversed
  simp at hit
  rcases mem_append.mp inReverse with early | late
  · have := none other early
    simp [same, below] at this
  · rcases mem_cons.mp late with rfl | late
    · exact le_rfl
    · have pair := (pairwise_cons.mp (pairwise_append.mp reversed).2.1).1 other late
      exact (pair (same.trans hit.1.symm)).le

theorem mem_liveAt {v : ν} : (k, v) ∈ liveAt cs t ↔ valueAt cs k t = some v := by
  unfold liveAt
  rw [mem_filterMap]
  constructor
  · intro found
    obtain ⟨key, -, value⟩ := found
    obtain ⟨w, held, pair⟩ := Option.map_eq_some_iff.mp value
    cases pair
    exact held
  · intro held
    refine ⟨k, ?_, by simp [held]⟩
    unfold valueAt at held
    obtain ⟨c, last, -⟩ := Option.bind_eq_some_iff.mp held
    have facts := lastChange_mem last
    exact mem_keys.mpr ⟨c, facts.1, facts.2.1⟩

theorem liveAt_sorted (cs : List (Change κ ν)) (t : Int) :
    (liveAt cs t).Pairwise (fun a b => a.1 < b.1) := by
  unfold liveAt
  rw [pairwise_filterMap]
  have sorted : (keys cs).Pairwise (· < ·) := Finset.sortedLT_sort _ |>.pairwise
  refine sorted.imp ?_
  intro a b less x xs y ys
  obtain ⟨_, -, rfl⟩ := Option.map_eq_some_iff.mp xs
  obtain ⟨_, -, rfl⟩ := Option.map_eq_some_iff.mp ys
  exact less

/-! ## Selecting keys -/

theorem valueAt_filter_key (cs : List (Change κ ν)) (p : κ → Prop) [DecidablePred p] (k : κ)
    (t : Int) :
    valueAt (cs.filter (fun c => p c.key)) k t = if p k then valueAt cs k t else none := by
  induction cs using reverseRecOn with
  | nil => simp
  | append_singleton cs c ih =>
    rw [filter_append, valueAt_append_singleton]
    by_cases selected : p c.key
    · have one : [c].filter (fun c => p c.key) = [c] := by simp [selected]
      rw [one, valueAt_append_singleton, ih]
      by_cases hit : c.key = k ∧ c.rev ≤ t
      · rw [if_pos hit, if_pos hit, if_pos (hit.1 ▸ selected)]
      · rw [if_neg hit, if_neg hit]
    · have none : [c].filter (fun c => p c.key) = [] := by simp [selected]
      rw [none, append_nil, ih]
      by_cases wanted : p k
      · rw [if_pos wanted, if_pos wanted, if_neg]
        intro hit
        exact selected (hit.1 ▸ wanted)
      · rw [if_neg wanted, if_neg wanted]

theorem liveAt_filter_key (cs : List (Change κ ν)) (p : κ → Prop) [DecidablePred p] (t : Int) :
    liveAt (cs.filter (fun c => p c.key)) t = (liveAt cs t).filter (fun e => p e.1) := by
  apply SortedMap.eq_of_sorted (liveAt_sorted _ t) ((liveAt_sorted cs t).filter _)
  intro k v
  rw [mem_liveAt, valueAt_filter_key, mem_filter, mem_liveAt]
  by_cases wanted : p k
  · simp [wanted]
  · simp [wanted]

theorem valueAt_filter_le (cs : List (Change κ ν)) (k : κ) (t : Int) :
    valueAt (cs.filter (fun c => c.rev ≤ t)) k t = valueAt cs k t := by
  induction cs using reverseRecOn with
  | nil => rfl
  | append_singleton cs c ih =>
    rw [filter_append, valueAt_append_singleton]
    by_cases upTo : c.rev ≤ t
    · have one : [c].filter (fun c => c.rev ≤ t) = [c] := by simp [upTo]
      rw [one, valueAt_append_singleton, ih]
    · have none : [c].filter (fun c => c.rev ≤ t) = [] := by simp [upTo]
      rw [none, append_nil, ih, if_neg (fun hit => upTo hit.2)]

theorem liveAt_congr {cs cs' : List (Change κ ν)} {t t' : Int}
    (same : ∀ k, valueAt cs k t = valueAt cs' k t') : liveAt cs t = liveAt cs' t' := by
  apply SortedMap.eq_of_sorted (liveAt_sorted cs t) (liveAt_sorted cs' t')
  intro k v
  rw [mem_liveAt, mem_liveAt, same]

/-! ## Replaying -/

/-- One change as an update of a plain map. -/
def update (m : SortedMap κ ν) (c : Change κ ν) : SortedMap κ ν :=
  match c.value with
  | none => m.erase c.key
  | some v => m.insert c.key v

theorem get_update (m : SortedMap κ ν) (c : Change κ ν) (k : κ) :
    (update m c).get k = if k = c.key then c.value else m.get k := by
  unfold update
  cases value : c.value with
  | none => exact SortedMap.get_erase m c.key k
  | some v => exact SortedMap.get_insert m c.key k v

theorem get_foldl_update (cs : List (Change κ ν)) (t : Int) (upTo : ∀ c ∈ cs, c.rev ≤ t)
    (k : κ) : (cs.foldl update SortedMap.empty).get k = valueAt cs k t := by
  induction cs using reverseRecOn with
  | nil => rfl
  | append_singleton cs c ih =>
    have here := upTo c (by simp)
    rw [foldl_append, foldl_cons, foldl_nil, get_update,
      ih (fun other mem => upTo other (by simp [mem])), valueAt_append_singleton]
    by_cases same : k = c.key
    · rw [if_pos same, if_pos ⟨same.symm, here⟩]
    · rw [if_neg same, if_neg (fun hit => same hit.1.symm)]

theorem entries_foldl_update (cs : List (Change κ ν)) (t : Int) (upTo : ∀ c ∈ cs, c.rev ≤ t) :
    (cs.foldl update SortedMap.empty).entries = liveAt cs t := by
  apply SortedMap.eq_of_sorted (SortedMap.sorted _) (liveAt_sorted cs t)
  intro k v
  rw [SortedMap.mem_entries_iff, get_foldl_update cs t upTo, mem_liveAt]

/-! ## Thinning -/

/-- `kept` is `cs` without some changes that a later change of the same key at or
below `W` supersedes. -/
structure Thins (W : Int) (kept cs : List (Change κ ν)) : Prop where
  sublist : kept.Sublist cs
  superseded : ∀ c ∈ cs, c ∉ kept →
    ∃ later ∈ cs, later.key = c.key ∧ c.rev < later.rev ∧ later.rev ≤ W

omit [LinearOrder κ] in
theorem Ordered.eq_of_rev_eq (ordered : Ordered cs) {a b : Change κ ν} (memA : a ∈ cs)
    (memB : b ∈ cs) (sameKey : a.key = b.key) (sameRev : a.rev = b.rev) : a = b := by
  by_contra differ
  have apart := Pairwise.forall_of_forall_of_flip
    (R := fun a b => a ≠ b → a.key = b.key → a.rev ≠ b.rev) (l := cs) (by simp)
    (ordered.imp (fun less _ same => (less same).ne))
    (ordered.imp (fun less _ same => (less same.symm).ne')) memA memB
  exact apart differ sameKey sameRev

theorem Thins.valueAt {W t : Int} {kept cs : List (Change κ ν)} (thins : Thins W kept cs)
    (ordered : Ordered cs) (above : W ≤ t) (k : κ) :
    Timeline.valueAt kept k t = Timeline.valueAt cs k t := by
  have keptOrdered : Ordered kept := ordered.sublist thins.sublist
  unfold Timeline.valueAt
  congr 1
  cases last : lastChange cs k t with
  | none =>
    unfold lastChange at last ⊢
    rw [find?_eq_none] at last ⊢
    intro c mem
    exact last c (mem_reverse.mpr (thins.sublist.subset (mem_reverse.mp mem)))
  | some c =>
    obtain ⟨mem, sameKey, below⟩ := lastChange_mem last
    have present : c ∈ kept := by
      by_contra dropped
      obtain ⟨later, laterMem, laterKey, newer, upTo⟩ := thins.superseded c mem dropped
      have := ordered.le_lastChange last laterMem (laterKey.trans sameKey) (upTo.trans above)
      omega
    cases lastKept : lastChange kept k t with
    | none =>
      unfold lastChange at lastKept
      rw [find?_eq_none] at lastKept
      have miss := lastKept c (mem_reverse.mpr present)
      simp [sameKey, below] at miss
    | some c' =>
      obtain ⟨mem', sameKey', below'⟩ := lastChange_mem lastKept
      have upper := ordered.le_lastChange last (thins.sublist.subset mem') sameKey' below'
      have lower := keptOrdered.le_lastChange lastKept present sameKey below
      rw [ordered.eq_of_rev_eq (thins.sublist.subset mem') mem (sameKey'.trans sameKey.symm)
        (le_antisymm upper lower)]

end Timeline

end T4.Lib
