import Mathlib

/-!
# Slices over shared arrays

A slice is a length over a backing array; its capacity is the length of the
array. Appending writes in place while the array has room, so every slice over
the same array sees the write, and moves to a new array when it has none. How
much larger a new array is made is left open (`Growth`).

`rewrite` empties a slice and appends a list to it. `rewrite_spec` says
everything it does: what the new slice holds, which array it lies in, and which
cells of the arrays that were there before have been overwritten.
-/

namespace ShareNotes.Lib.Slices

/-- A slice that starts at the first cell of its array. -/
structure Slice where
  array : ℕ
  len : ℕ
  deriving DecidableEq, Repr

/-- The arrays allocated so far. -/
structure Heap (α : Type) where
  arrays : List (List α)

/-- The capacity of a new array, given the old capacity and the length it has to hold. -/
structure Growth where
  newCap : ℕ → ℕ → ℕ
  le : ∀ cap len, len ≤ newCap cap len

variable {α : Type}

/-- The cells of an array. -/
def Heap.cells (h : Heap α) (a : ℕ) : List α := h.arrays.getD a []

def Heap.cap (h : Heap α) (s : Slice) : ℕ := (h.cells s.array).length

/-- `s[i]`; `none` is an index out of range. -/
def Heap.index (h : Heap α) (s : Slice) (i : ℕ) : Option α :=
  if i < s.len then (h.cells s.array)[i]? else none

/-- `append(s, x)`. -/
def Heap.append [Inhabited α] (g : Growth) (h : Heap α) (s : Slice) (x : α) : Heap α × Slice :=
  if s.len < h.cap s then
    (⟨h.arrays.set s.array ((h.cells s.array).set s.len x)⟩, ⟨s.array, s.len + 1⟩)
  else
    (⟨h.arrays ++ [(h.cells s.array).take s.len ++ x ::
        List.replicate (g.newCap (h.cap s) (s.len + 1) - (s.len + 1)) default]⟩,
      ⟨h.arrays.length, s.len + 1⟩)

/-- Append the elements of a list one by one. -/
def Heap.appendAll [Inhabited α] (g : Growth) (h : Heap α) (s : Slice) (xs : List α) : Heap α × Slice :=
  xs.foldl (fun p x => p.1.append g p.2 x) (h, s)

/-- `s = s[0:0]`, then an append for each element. -/
def Heap.rewrite [Inhabited α] (g : Growth) (h : Heap α) (s : Slice) (xs : List α) : Heap α × Slice :=
  h.appendAll g ⟨s.array, 0⟩ xs

/-! ### What appending does -/

theorem Heap.cells_set_self (h : Heap α) {a : ℕ} (ha : a < h.arrays.length) (cs : List α) :
    (⟨h.arrays.set a cs⟩ : Heap α).cells a = cs := by
  unfold Heap.cells
  rw [List.getD_eq_getElem?_getD, List.getElem?_set_self ha, Option.getD_some]

theorem Heap.cells_set_of_ne (h : Heap α) {a b : ℕ} (hab : b ≠ a) (cs : List α) :
    (⟨h.arrays.set a cs⟩ : Heap α).cells b = h.cells b := by
  unfold Heap.cells
  rw [List.getD_eq_getElem?_getD, List.getD_eq_getElem?_getD, List.getElem?_set_ne (Ne.symm hab)]

theorem Heap.cells_alloc_new (h : Heap α) (cs : List α) :
    (⟨h.arrays ++ [cs]⟩ : Heap α).cells h.arrays.length = cs := by
  unfold Heap.cells
  rw [List.getD_eq_getElem?_getD, List.getElem?_concat_length, Option.getD_some]

theorem Heap.cells_alloc_old (h : Heap α) {b : ℕ} (hb : b < h.arrays.length) (cs : List α) :
    (⟨h.arrays ++ [cs]⟩ : Heap α).cells b = h.cells b := by
  unfold Heap.cells
  rw [List.getD_eq_getElem?_getD, List.getD_eq_getElem?_getD, List.getElem?_append_left hb]

/-- What holds after `xs` was appended to the emptied slice over array `a` of the heap `h₀`. -/
structure Rewritten (h₀ : Heap α) (a : ℕ) (xs : List α) (h : Heap α) (s : Slice) : Prop where
  len : s.len = xs.length
  valid : s.array < h.arrays.length
  grows : h₀.arrays.length ≤ h.arrays.length
  holds : ∀ i, h.index s i = xs[i]?
  place : s.array = a ∨ h₀.arrays.length ≤ s.array ∧ (h₀.cells a).length < xs.length
  others : ∀ b < h₀.arrays.length, b ≠ a → h.cells b = h₀.cells b
  written : ∀ i, (h.cells a)[i]? =
    if i < xs.length ∧ i < (h₀.cells a).length then xs[i]? else (h₀.cells a)[i]?

theorem rewritten_nil (h₀ : Heap α) {a : ℕ} (ha : a < h₀.arrays.length) :
    Rewritten h₀ a [] h₀ ⟨a, 0⟩ where
  len := rfl
  valid := ha
  grows := le_rfl
  holds := by simp [Heap.index]
  place := Or.inl rfl
  others := fun _ _ _ => rfl
  written := by simp

/-- The cells that a slice of full length holds are exactly the elements appended. -/
theorem Rewritten.take_cells {h₀ h : Heap α} {a : ℕ} {xs : List α} {s : Slice}
    (hr : Rewritten h₀ a xs h s) : (h.cells s.array).take s.len = xs := by
  apply List.ext_getElem?
  intro i
  have hi := hr.holds i
  rw [List.getElem?_take]
  unfold Heap.index at hi
  split
  · rename_i hlt
    rw [if_pos hlt] at hi
    exact hi
  · rename_i hge
    rw [if_neg hge] at hi
    exact hi

theorem Rewritten.len_le_cap {h₀ h : Heap α} {a : ℕ} {xs : List α} {s : Slice}
    (hr : Rewritten h₀ a xs h s) : xs.length ≤ h.cap s := by
  have ht := congrArg List.length hr.take_cells
  rw [List.length_take, hr.len] at ht
  unfold Heap.cap
  omega

/-- **One more append.** -/
theorem Rewritten.append [Inhabited α] {h₀ h : Heap α} {a : ℕ} {xs : List α} {s : Slice} (g : Growth)
    (ha : a < h₀.arrays.length) (hr : Rewritten h₀ a xs h s) (x : α) :
    Rewritten h₀ a (xs ++ [x]) (h.append g s x).1 (h.append g s x).2 := by
  have hlen := hr.len
  have hcapa : (h.cells a).length = (h₀.cells a).length := by
    apply le_antisymm
    · rw [← List.getElem?_eq_none_iff, hr.written]
      simp
    · rw [← List.getElem?_eq_none_iff]
      have hw := hr.written (h.cells a).length
      rw [List.getElem?_eq_none le_rfl] at hw
      split at hw
      · rename_i hlt
        exact absurd hw.symm (by rw [List.getElem?_eq_getElem hlt.1]; simp)
      · exact hw.symm
  unfold Heap.append
  by_cases hroom : s.len < h.cap s
  · -- the array has room: the cell after the last one is overwritten in place
    rw [if_pos hroom]
    refine ⟨by simp [hlen], by simpa using hr.valid, by simpa using hr.grows, ?_, ?_, ?_, ?_⟩
    · intro i
      unfold Heap.index
      rw [Heap.cells_set_self h hr.valid]
      rcases Nat.lt_trichotomy i s.len with hi | hi | hi
      · have hold := hr.holds i
        unfold Heap.index at hold
        rw [if_pos hi] at hold
        rw [if_pos (by show i < s.len + 1; omega), List.getElem?_set_ne (by omega), hold,
          List.getElem?_append_left (by omega)]
      · rw [if_pos (by show i < s.len + 1; omega), hi, List.getElem?_set_self hroom, hlen,
          List.getElem?_concat_length]
      · rw [if_neg (by show ¬i < s.len + 1; omega), List.getElem?_eq_none (by simp; omega)]
    · rcases hr.place with hp | ⟨hp, hlt⟩
      · exact Or.inl hp
      · exact Or.inr ⟨hp, by rw [List.length_append]; omega⟩
    · intro b hb hba
      rcases hr.place with hp | ⟨hp, _⟩
      · rw [Heap.cells_set_of_ne h (by rw [hp]; exact hba)]
        exact hr.others b hb hba
      · rw [Heap.cells_set_of_ne h (by omega)]
        exact hr.others b hb hba
    · intro i
      rcases hr.place with hp | ⟨hp, hlt⟩
      · rw [← hp, Heap.cells_set_self h hr.valid, hp]
        unfold Heap.cap at hroom
        rw [hp] at hroom
        rcases Nat.lt_trichotomy i s.len with hi | hi | hi
        · rw [List.getElem?_set_ne (by omega), hr.written, List.length_append,
            List.getElem?_append_left (by omega)]
          congr 1
          simp only [List.length_singleton, eq_iff_iff]
          omega
        · rw [hi, List.getElem?_set_self hroom, if_pos (by simp; omega), hlen,
            List.getElem?_concat_length]
        · rw [List.getElem?_set_ne (by omega), hr.written, if_neg (by omega),
            if_neg (by simp; omega)]
      · rw [Heap.cells_set_of_ne h (by omega), hr.written]
        by_cases hi : i < (h₀.cells a).length
        · rw [if_pos (by omega), if_pos (by simp; omega), List.getElem?_append_left (by omega)]
        · rw [if_neg (by omega), if_neg (by omega)]
  · -- the array is full: its cells are copied to a new one
    rw [if_neg hroom]
    have hfull : h.cap s = xs.length := by
      have := hr.len_le_cap
      omega
    refine ⟨by simp [hlen], by simp, by simpa using Nat.le_succ_of_le hr.grows, ?_, ?_, ?_, ?_⟩
    · intro i
      unfold Heap.index
      rw [Heap.cells_alloc_new, hr.take_cells]
      by_cases hi : i < s.len + 1
      · rw [if_pos hi, ← List.singleton_append, ← List.append_assoc,
          List.getElem?_append_left (by simp; omega)]
      · rw [if_neg hi, List.getElem?_eq_none (by simp; omega)]
    · refine Or.inr ⟨hr.grows, ?_⟩
      rw [List.length_append, List.length_singleton]
      rcases hr.place with hp | ⟨_, hlt⟩
      · unfold Heap.cap at hfull
        rw [hp, hcapa] at hfull
        omega
      · omega
    · intro b hb hba
      rw [Heap.cells_alloc_old h (lt_of_lt_of_le hb hr.grows)]
      exact hr.others b hb hba
    · intro i
      have hle : (h₀.cells a).length ≤ xs.length := by
        rcases hr.place with hp | ⟨_, hlt⟩
        · unfold Heap.cap at hfull
          rw [hp, hcapa] at hfull
          omega
        · omega
      rw [Heap.cells_alloc_old h (lt_of_lt_of_le ha hr.grows), hr.written]
      by_cases hi : i < (h₀.cells a).length
      · rw [if_pos (by omega), if_pos (by simp; omega), List.getElem?_append_left (by omega)]
      · rw [if_neg (by omega), if_neg (by omega)]

/-- **What rewriting a slice does.** -/
theorem rewrite_spec [Inhabited α] (g : Growth) (h₀ : Heap α) {s₀ : Slice}
    (hs : s₀.array < h₀.arrays.length) (xs : List α) :
    Rewritten h₀ s₀.array xs (h₀.rewrite g s₀ xs).1 (h₀.rewrite g s₀ xs).2 := by
  unfold Heap.rewrite Heap.appendAll
  induction xs using List.reverseRecOn with
  | nil => exact rewritten_nil h₀ hs
  | append_singleton xs x ih =>
    rw [List.foldl_append]
    exact ih.append g hs x

/-! ### What a rewritten slice holds -/

/-- The elements of a slice, in order. -/
def Heap.elements (h : Heap α) (s : Slice) : List α := (h.cells s.array).take s.len

theorem Heap.elements_append [Inhabited α] (g : Growth) (h : Heap α) {s : Slice}
    (hs : s.len ≤ h.cap s) (x : α) :
    (h.append g s x).1.elements (h.append g s x).2 = h.elements s ++ [x] ∧
      (h.append g s x).2.len ≤ (h.append g s x).1.cap (h.append g s x).2 := by
  unfold Heap.append
  by_cases hroom : s.len < h.cap s
  · have hvalid : s.array < h.arrays.length := by
      by_contra hout
      unfold Heap.cap Heap.cells at hroom
      rw [List.getD_eq_default _ _ (by omega)] at hroom
      exact absurd hroom (by simp)
    rw [if_pos hroom]
    refine ⟨?_, ?_⟩
    · show ((⟨_⟩ : Heap α).cells s.array).take (s.len + 1) = (h.cells s.array).take s.len ++ [x]
      unfold Heap.cap at hroom
      rw [Heap.cells_set_self h hvalid, List.take_add_one, List.take_set_of_le le_rfl,
        List.getElem?_set_self hroom]
      rfl
    · show s.len + 1 ≤ ((⟨_⟩ : Heap α).cells s.array).length
      rw [Heap.cells_set_self h hvalid, List.length_set]
      exact hroom
  · rw [if_neg hroom]
    have hlen : ((h.cells s.array).take s.len).length = s.len := by
      rw [List.length_take]
      exact Nat.min_eq_left hs
    refine ⟨?_, ?_⟩
    · show ((⟨_⟩ : Heap α).cells h.arrays.length).take (s.len + 1) = _ ++ [x]
      rw [Heap.cells_alloc_new, List.take_append, hlen, List.take_of_length_le (by omega),
        Nat.add_sub_cancel_left]
      rfl
    · show s.len + 1 ≤ ((⟨_⟩ : Heap α).cells h.arrays.length).length
      rw [Heap.cells_alloc_new, List.length_append, hlen, List.length_cons]
      omega

/-- **A rewritten slice holds what it was rewritten with**, whatever it was before. -/
theorem rewrite_elements [Inhabited α] (g : Growth) (h₀ : Heap α) (s₀ : Slice) (xs : List α) :
    (h₀.rewrite g s₀ xs).1.elements (h₀.rewrite g s₀ xs).2 = xs ∧
      (h₀.rewrite g s₀ xs).2.len ≤ (h₀.rewrite g s₀ xs).1.cap (h₀.rewrite g s₀ xs).2 := by
  unfold Heap.rewrite Heap.appendAll
  induction xs using List.reverseRecOn with
  | nil => exact ⟨rfl, Nat.zero_le _⟩
  | append_singleton xs x ih =>
    rw [List.foldl_append]
    have happend := Heap.elements_append g _ ih.2 x
    rw [ih.1] at happend
    exact happend

/-- Looking at one element after another finds all of them. -/
theorem Heap.index_eq (h : Heap α) (s : Slice) (i : ℕ) : h.index s i = (h.elements s)[i]? := by
  unfold Heap.index Heap.elements
  rw [List.getElem?_take]

/-! ### What appending keeps -/

theorem Heap.cells_of_le (h : Heap α) {a : ℕ} (ha : h.arrays.length ≤ a) : h.cells a = [] :=
  List.getD_eq_default _ _ ha

/-- Arrays do not shrink. -/
theorem Heap.length_cells_append [Inhabited α] (g : Growth) (h : Heap α) (s : Slice) (x : α)
    (a : ℕ) : (h.cells a).length ≤ ((h.append g s x).1.cells a).length := by
  rcases Nat.lt_or_ge a h.arrays.length with ha | ha
  · unfold Heap.append
    split
    · by_cases has : a = s.array
      · subst has
        show _ ≤ ((⟨_⟩ : Heap α).cells s.array).length
        rw [Heap.cells_set_self h ha, List.length_set]
      · show _ ≤ ((⟨_⟩ : Heap α).cells a).length
        rw [Heap.cells_set_of_ne h has]
    · show _ ≤ ((⟨_⟩ : Heap α).cells a).length
      rw [Heap.cells_alloc_old h ha]
  · rw [h.cells_of_le ha]
    exact Nat.zero_le _

/-- A cell holds what some cell held before, the new element, or nothing yet. -/
theorem Heap.mem_cells_append [Inhabited α] (g : Growth) (h : Heap α) (s : Slice) (x : α) {a : ℕ}
    {y : α} (hy : y ∈ (h.append g s x).1.cells a) :
    (∃ b, y ∈ h.cells b) ∨ y = x ∨ y = default := by
  rcases Nat.lt_or_ge a h.arrays.length with ha | ha
  · unfold Heap.append at hy
    split at hy
    · by_cases has : a = s.array
      · subst has
        change y ∈ (⟨_⟩ : Heap α).cells s.array at hy
        rw [Heap.cells_set_self h ha] at hy
        rcases List.mem_or_eq_of_mem_set hy with hold | hnew
        · exact Or.inl ⟨_, hold⟩
        · exact Or.inr (Or.inl hnew)
      · change y ∈ (⟨_⟩ : Heap α).cells a at hy
        rw [Heap.cells_set_of_ne h has] at hy
        exact Or.inl ⟨a, hy⟩
    · change y ∈ (⟨_⟩ : Heap α).cells a at hy
      rw [Heap.cells_alloc_old h ha] at hy
      exact Or.inl ⟨a, hy⟩
  · unfold Heap.append at hy
    split at hy
    · change y ∈ (⟨_⟩ : Heap α).cells a at hy
      rw [Heap.cells_of_le _ (by rw [List.length_set]; exact ha)] at hy
      exact absurd hy List.not_mem_nil
    · change y ∈ (⟨_⟩ : Heap α).cells a at hy
      rcases Nat.eq_or_lt_of_le ha with heq | hlt
      · rw [← heq, Heap.cells_alloc_new, List.mem_append, List.mem_cons] at hy
        rcases hy with hold | hnew | hrest
        · exact Or.inl ⟨_, List.mem_of_mem_take hold⟩
        · exact Or.inr (Or.inl hnew)
        · exact Or.inr (Or.inr (List.eq_of_mem_replicate hrest))
      · rw [Heap.cells_of_le _ (by rw [List.length_append]; exact hlt)] at hy
        exact absurd hy List.not_mem_nil

theorem Heap.length_cells_rewrite [Inhabited α] (g : Growth) (h : Heap α) (s : Slice)
    (xs : List α) (a : ℕ) : (h.cells a).length ≤ ((h.rewrite g s xs).1.cells a).length := by
  unfold Heap.rewrite Heap.appendAll
  induction xs using List.reverseRecOn with
  | nil => exact le_rfl
  | append_singleton xs x ih =>
    rw [List.foldl_append]
    exact ih.trans (Heap.length_cells_append g _ _ x a)

theorem Heap.mem_cells_rewrite [Inhabited α] (g : Growth) (h : Heap α) (s : Slice) (xs : List α)
    {a : ℕ} {y : α} (hy : y ∈ (h.rewrite g s xs).1.cells a) :
    (∃ b, y ∈ h.cells b) ∨ y ∈ xs ∨ y = default := by
  unfold Heap.rewrite Heap.appendAll at hy
  induction xs using List.reverseRecOn generalizing a with
  | nil => exact Or.inl ⟨a, hy⟩
  | append_singleton xs x ih =>
    rw [List.foldl_append] at hy
    rw [List.mem_append, List.mem_singleton]
    rcases Heap.mem_cells_append g _ _ x hy with ⟨b, hb⟩ | hx | hdefault
    · rcases ih hb with hold | hxs | hdefault
      · exact Or.inl hold
      · exact Or.inr (Or.inl (Or.inl hxs))
      · exact Or.inr (Or.inr hdefault)
    · exact Or.inr (Or.inl (Or.inr hx))
    · exact Or.inr (Or.inr hdefault)

end ShareNotes.Lib.Slices
