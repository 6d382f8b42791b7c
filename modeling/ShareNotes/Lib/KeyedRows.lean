import Mathlib

/-!
# Tables with an integer primary key

A `RowTable` is a list of keyed rows in increasing order of the key, as a rowid
table is stored. The order is a field of the structure, so no operation can
build a table with a repeated key. A new row gets the key after the last one,
which means that the key of a removed last row is given out again.

Each operation is described by what a lookup finds afterwards; `map` forgets
part of every row and commutes with all of them.
-/

namespace ShareNotes.Lib.KeyedRows

/-- Rows in strictly increasing order of their keys. -/
@[ext] structure RowTable (α : Type) where
  rows : List (ℤ × α)
  sorted : rows.Pairwise fun p q => p.1 < q.1

namespace RowTable

variable {α β : Type}

def empty : RowTable α := ⟨[], List.Pairwise.nil⟩

/-- The row stored under a key. -/
def lookup (t : RowTable α) (k : ℤ) : Option α :=
  (t.rows.find? fun r => r.1 == k).map Prod.snd

/-- One more than the largest key, or 1 in an empty table. -/
def nextKey (t : RowTable α) : ℤ :=
  match t.rows.getLast? with
  | none => 1
  | some r => r.1 + 1

theorem lt_nextKey (t : RowTable α) {r : ℤ × α} (hr : r ∈ t.rows) : r.1 < t.nextKey := by
  have hs := t.sorted
  unfold nextKey
  rcases List.eq_nil_or_concat t.rows with hnil | ⟨init, last, hlast⟩
  · rw [hnil] at hr
    exact absurd hr List.not_mem_nil
  · rw [hlast] at hr hs ⊢
    simp only [List.concat_eq_append, List.getLast?_append, List.getLast?_singleton, Option.some_or]
    rw [List.concat_eq_append, List.pairwise_append] at hs
    rw [List.concat_eq_append, List.mem_append, List.mem_singleton] at hr
    rcases hr with hr | hr
    · have := hs.2.2 r hr last (by simp)
      omega
    · rw [hr]
      omega

/-- Store a row under the next key. -/
def insert (t : RowTable α) (a : α) : RowTable α where
  rows := t.rows ++ [(t.nextKey, a)]
  sorted := by
    rw [List.pairwise_append]
    refine ⟨t.sorted, List.pairwise_singleton _ _, ?_⟩
    intro r hr q hq
    rw [List.mem_singleton] at hq
    rw [hq]
    exact t.lt_nextKey hr

/-- Change the row stored under a key, if there is one. -/
def modify (t : RowTable α) (k : ℤ) (f : α → α) : RowTable α where
  rows := t.rows.map fun r => if r.1 = k then (r.1, f r.2) else r
  sorted := by
    rw [List.pairwise_map]
    apply t.sorted.imp
    intro p q hpq
    split <;> split <;> exact hpq

/-- Remove the row stored under a key, if there is one. -/
def erase (t : RowTable α) (k : ℤ) : RowTable α where
  rows := t.rows.filter fun r => r.1 != k
  sorted := t.sorted.filter _

/-- Apply a function to every row, keeping the keys. -/
def map (f : α → β) (t : RowTable α) : RowTable β where
  rows := t.rows.map fun r => (r.1, f r.2)
  sorted := by
    rw [List.pairwise_map]
    exact t.sorted

/-! ### Lookups -/

@[simp] theorem lookup_empty (k : ℤ) : (empty : RowTable α).lookup k = none := rfl

theorem lookup_eq_none_iff (t : RowTable α) (k : ℤ) :
    t.lookup k = none ↔ ∀ r ∈ t.rows, r.1 ≠ k := by
  simp [lookup]

/-- The next key is fresh, and so is every key above it. -/
theorem lookup_of_nextKey_le (t : RowTable α) {k : ℤ} (hk : t.nextKey ≤ k) : t.lookup k = none := by
  rw [lookup_eq_none_iff]
  intro r hr
  have := t.lt_nextKey hr
  omega

@[simp] theorem lookup_nextKey (t : RowTable α) : t.lookup t.nextKey = none :=
  t.lookup_of_nextKey_le le_rfl

theorem lookup_insert (t : RowTable α) (a : α) (k : ℤ) :
    (t.insert a).lookup k = if k = t.nextKey then some a else t.lookup k := by
  unfold lookup insert
  rw [List.find?_append]
  by_cases hk : k = t.nextKey
  · have hnone := t.lookup_nextKey
    unfold lookup at hnone
    rw [Option.map_eq_none_iff] at hnone
    rw [hk, hnone]
    simp
  · have hk' : t.nextKey ≠ k := fun h => hk h.symm
    simp [hk, hk']

theorem lookup_modify (t : RowTable α) (k j : ℤ) (f : α → α) :
    (t.modify k f).lookup j = if j = k then (t.lookup j).map f else t.lookup j := by
  unfold lookup modify
  have hfun : ((fun r : ℤ × α => r.1 == j) ∘ fun r => if r.1 = k then (r.1, f r.2) else r) =
      fun r => r.1 == j := by
    funext r
    simp only [Function.comp_apply]
    split <;> rfl
  rw [List.find?_map, hfun, Option.map_map]
  cases hfind : t.rows.find? fun r => r.1 == j with
  | none => simp
  | some r =>
    have hr : r.1 = j := by simpa using List.find?_some hfind
    by_cases hj : j = k
    · simp [hr, hj]
    · simp [hr, hj]

theorem lookup_erase (t : RowTable α) (k j : ℤ) :
    (t.erase k).lookup j = if j = k then none else t.lookup j := by
  unfold lookup erase
  rw [List.find?_filter]
  by_cases hj : j = k
  · rw [if_pos hj, Option.map_eq_none_iff, List.find?_eq_none]
    intro r _
    simp [hj]
  · rw [if_neg hj]
    congr 2
    funext r
    by_cases hr : r.1 = j
    · simp [hr, hj]
    · simp [hr]

theorem lookup_map (f : α → β) (t : RowTable α) (k : ℤ) :
    (t.map f).lookup k = (t.lookup k).map f := by
  unfold lookup map
  rw [List.find?_map, Option.map_map, Option.map_map]
  rfl

/-! ### Operations that change nothing -/

theorem modify_of_lookup_none (t : RowTable α) {k : ℤ} (f : α → α) (hk : t.lookup k = none) :
    t.modify k f = t := by
  rw [lookup_eq_none_iff] at hk
  apply RowTable.ext
  exact (List.map_congr_left fun r hr => if_neg (hk r hr)).trans (List.map_id _)

/-- A key has one row. -/
theorem lookup_of_mem (t : RowTable α) {r : ℤ × α} (hr : r ∈ t.rows) :
    t.lookup r.1 = some r.2 := by
  have hs := t.sorted
  unfold lookup
  revert hs hr
  induction t.rows with
  | nil => simp
  | cons q rows ih =>
    intro hr hs
    rw [List.pairwise_cons] at hs
    rw [List.find?_cons]
    rcases List.mem_cons.mp hr with hq | hin
    · simp [hq]
    · have hlt := hs.1 r hin
      have hne : (q.1 == r.1) = false := by simpa using hlt.ne
      rw [hne]
      exact ih hin hs.2

theorem mem_of_lookup (t : RowTable α) {k : ℤ} {a : α} (hk : t.lookup k = some a) :
    (k, a) ∈ t.rows := by
  unfold lookup at hk
  rw [Option.map_eq_some_iff] at hk
  obtain ⟨r, hfind, ha⟩ := hk
  have hr : r.1 = k := by simpa using List.find?_some hfind
  have hmem := List.mem_of_find?_eq_some hfind
  rw [← hr, ← ha]
  exact hmem

theorem modify_of_fixed (t : RowTable α) {k : ℤ} {a : α} (f : α → α) (hk : t.lookup k = some a)
    (hf : f a = a) : t.modify k f = t := by
  apply RowTable.ext
  refine (List.map_congr_left fun r hr => ?_).trans (List.map_id _)
  by_cases hrk : r.1 = k
  · have ha := t.lookup_of_mem hr
    rw [hrk, hk, Option.some.injEq] at ha
    rw [if_pos hrk, ← ha, hf, ha]
    rfl
  · exact if_neg hrk

/-- Removing a row undoes every change made to it before. -/
theorem erase_modify (t : RowTable α) (k : ℤ) (f : α → α) : (t.modify k f).erase k = t.erase k := by
  apply RowTable.ext
  unfold modify erase
  simp only [List.filter_map]
  have hp : ((fun r : ℤ × α => r.1 != k) ∘ fun r => if r.1 = k then (r.1, f r.2) else r) =
      fun r => r.1 != k := by
    funext r
    simp only [Function.comp_apply]
    split <;> rfl
  rw [hp]
  refine (List.map_congr_left fun r hr => ?_).trans (List.map_id _)
  have hrk : r.1 ≠ k := by simpa using (List.mem_filter.mp hr).2
  exact if_neg hrk

/-! ### Forgetting part of every row -/

@[simp] theorem nextKey_map (f : α → β) (t : RowTable α) : (t.map f).nextKey = t.nextKey := by
  unfold nextKey map
  rw [List.getLast?_map]
  cases t.rows.getLast? <;> rfl

theorem map_insert (f : α → β) (t : RowTable α) (a : α) :
    (t.insert a).map f = (t.map f).insert (f a) := by
  apply RowTable.ext
  show (t.rows ++ [(t.nextKey, a)]).map _ = (t.map f).rows ++ [((t.map f).nextKey, f a)]
  rw [nextKey_map, List.map_append]
  rfl

theorem map_modify (f : α → β) (t : RowTable α) (k : ℤ) (g : α → α) (g' : β → β)
    (hg : ∀ a, f (g a) = g' (f a)) : (t.modify k g).map f = (t.map f).modify k g' := by
  apply RowTable.ext
  show (t.rows.map _).map _ = (t.rows.map _).map _
  rw [List.map_map, List.map_map]
  apply List.map_congr_left
  intro r _
  simp only [Function.comp_apply]
  split
  · rw [hg]
  · rfl

theorem map_erase (f : α → β) (t : RowTable α) (k : ℤ) :
    (t.erase k).map f = (t.map f).erase k := by
  apply RowTable.ext
  show (t.rows.filter _).map _ = (t.rows.map _).filter _
  rw [List.filter_map]
  rfl

end RowTable

end ShareNotes.Lib.KeyedRows
