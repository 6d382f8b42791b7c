import Mathlib

/-!
# Prefixes of a stream that is filtered

A stream is a function from positions. `firsts g m` are its first `m` elements
and `kept p g m` those of them that pass a test. A reader that takes the first
`n` elements that pass has read one `m` with exactly `n` of them, and
`take_kept` says that every longer prefix gives the same `n`.

A stream may be made of chunks of one size; `firsts_chunks` puts them together.
-/

namespace ShareNotes.Lib.Streams

variable {α : Type} (p : α → Bool) (g : ℕ → α)

/-- The first `m` elements. -/
def firsts (m : ℕ) : List α := (List.range m).map g

/-- Those of the first `m` elements that pass. -/
def kept (m : ℕ) : List α := (firsts g m).filter p

theorem firsts_succ (m : ℕ) : firsts g (m + 1) = firsts g m ++ [g m] := by
  rw [firsts, List.range_succ, List.map_append]
  rfl

theorem getElem?_firsts {k m : ℕ} (h : k < m) : (firsts g m)[k]? = some (g k) := by
  rw [firsts, List.getElem?_map, List.getElem?_range h]
  rfl

/-- An element that passes is kept behind the others. -/
theorem kept_succ_of_pos {m : ℕ} (h : p (g m) = true) : kept p g (m + 1) = kept p g m ++ [g m] := by
  rw [kept, firsts_succ, List.filter_append, List.filter_singleton, h]
  rfl

theorem kept_succ_of_neg {m : ℕ} (h : p (g m) = false) : kept p g (m + 1) = kept p g m := by
  rw [kept, firsts_succ, List.filter_append, List.filter_singleton, h]
  exact List.append_nil _

/-- What is kept of a longer prefix continues what is kept of a shorter one. -/
theorem kept_mono {k m : ℕ} (h : k ≤ m) : kept p g k <+: kept p g m := by
  induction h with
  | refl => exact List.prefix_rfl
  | step _ ih =>
    refine ih.trans ?_
    rw [kept, kept, firsts_succ, List.filter_append]
    exact List.prefix_append _ _

/-- **The first `n` elements that pass** do not depend on how far the stream is read. -/
theorem take_kept {k m n : ℕ} (hk : (kept p g k).length = n) (hm : n ≤ (kept p g m).length) :
    (kept p g m).take n = kept p g k := by
  rcases Nat.le_total k m with hkm | hmk
  · rw [← hk]
    exact (List.prefix_iff_eq_take.mp (kept_mono p g hkm)).symm
  · have hprefix := kept_mono p g hmk
    have hall : kept p g m = kept p g k := hprefix.eq_of_length_le (by omega)
    rw [hall, ← hk, List.take_length]

/-- **Chunks of `c` elements**, put one after another. -/
theorem firsts_chunks (c d : ℕ) :
    ((List.range d).flatMap fun i => (List.range c).map fun j => g (c * i + j)) =
      firsts g (c * d) := by
  induction d with
  | zero => rfl
  | succ d ih =>
    rw [List.range_succ, List.flatMap_append, ih, List.flatMap_singleton, firsts, firsts,
      Nat.mul_succ, List.range_add, List.map_append, List.map_map]
    rfl

end ShareNotes.Lib.Streams
