import Mathlib

/-!
# Words placed in order in a list

`Placed n ws s` says that the words `ws` occur in `s` one after another, each at
least one element after the end of the one before, with at least `n` elements
behind the last. Whether they can be placed is decided from the left: a word
that the list starts with may always be placed there, and an element that the
first word does not start at may always be dropped.
-/

namespace ShareNotes.Lib.Placements

variable {α : Type}

inductive Placed (n : ℕ) : List (List α) → List α → Prop
  | last {w s u v : List α} (hs : s = u ++ (w ++ v)) (hn : n ≤ v.length) : Placed n [w] s
  | cons {w : List α} {ws : List (List α)} {s u : List α} {c : α} {v : List α}
      (hs : s = u ++ (w ++ c :: v)) (hws : Placed n ws v) : Placed n (w :: ws) s

theorem not_placed_nil {n : ℕ} {s : List α} : ¬Placed n [] s := by
  intro h
  cases h

theorem Placed.append_left {n : ℕ} {ws : List (List α)} {s : List α} (h : Placed n ws s)
    (t : List α) : Placed n ws (t ++ s) := by
  cases h with
  | last hs hn => exact .last (u := t ++ _) (by rw [hs, List.append_assoc]) hn
  | cons hs hws => exact .cons (u := t ++ _) (by rw [hs, List.append_assoc]) hws

/-- An element that the first word does not start at is dropped. -/
theorem placed_cons_iff {n : ℕ} {w : List α} {ws : List (List α)} {b : α} {s : List α}
    (hw : ¬w <+: b :: s) : Placed n (w :: ws) (b :: s) ↔ Placed n (w :: ws) s := by
  constructor
  · intro h
    -- the elements before the first word start with `b`
    have hdrop : ∀ {u t : List α}, b :: s = u ++ (w ++ t) → ∃ u', s = u' ++ (w ++ t) := by
      intro u t hs
      cases u with
      | nil => exact absurd ⟨t, hs.symm⟩ hw
      | cons x u => exact ⟨u, (List.cons.inj hs).2⟩
    cases h with
    | last hs hn =>
      obtain ⟨u, hu⟩ := hdrop hs
      exact .last hu hn
    | cons hs hws =>
      obtain ⟨u, hu⟩ := hdrop hs
      exact .cons hu hws
  · intro h
    exact h.append_left [b]

/-- The last word is placed at the front. -/
theorem placed_last_iff {n : ℕ} {w v : List α} : Placed n [w] (w ++ v) ↔ n ≤ v.length := by
  constructor
  · intro h
    cases h with
    | last hs hn =>
      have hlen := congrArg List.length hs
      simp only [List.length_append] at hlen
      omega
    | cons _ hws => exact absurd hws not_placed_nil
  · intro hn
    exact .last (u := []) rfl hn

/-- A word that is not the last is placed at the front. -/
theorem placed_append_iff {n : ℕ} {w : List α} {ws : List (List α)} (hws : ws ≠ []) {c : α}
    {v : List α} : Placed n (w :: ws) (w ++ c :: v) ↔ Placed n ws v := by
  constructor
  · intro h
    cases h with
    | last _ _ => exact absurd rfl hws
    | @cons _ _ _ u c' v' hs hplaced =>
      have hsuffix : v' <:+ v := by
        have hv : v' <:+ w ++ c :: v := ⟨u ++ (w ++ [c']), by rw [hs]; simp⟩
        apply List.suffix_of_suffix_length_le hv ⟨w ++ [c], by simp⟩
        have hlen := congrArg List.length hs
        simp only [List.length_append, List.length_cons] at hlen
        omega
      obtain ⟨t, rfl⟩ := hsuffix
      exact hplaced.append_left t
  · intro h
    exact .cons (u := []) rfl h

/-- No word fits behind a word that takes up the whole list. -/
theorem not_placed_self {n : ℕ} {w : List α} {ws : List (List α)} (hws : ws ≠ []) :
    ¬Placed n (w :: ws) w := by
  intro h
  cases h with
  | last _ _ => exact absurd rfl hws
  | cons hs _ =>
    have hlen := congrArg List.length hs
    simp only [List.length_append, List.length_cons] at hlen
    omega

/-- A word that is not empty is not placed in the empty list. -/
theorem not_placed_empty {n : ℕ} {w : List α} {ws : List (List α)} (hw : w ≠ []) :
    ¬Placed n (w :: ws) [] := by
  intro h
  cases h with
  | last hs _ =>
    rw [eq_comm, List.append_eq_nil_iff, List.append_eq_nil_iff] at hs
    exact hw hs.2.1
  | cons hs _ => exact absurd hs (by simp)

end ShareNotes.Lib.Placements
