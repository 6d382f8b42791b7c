import Mathlib

/-!
# Sequential orders for concurrent operations

A `SeqObject` says what each operation answers in a state and which state it
leaves. Given the states that a concurrent run went through, each operation is
placed at one of its moments: on the call made there, or right before it.
`order` lists the operations by moment, those that come right before the call
first. When every moment replays on its own (`Replays`), so does the whole order,
and operations at different moments stand in the order of their moments.
-/

namespace ShareNotes.Lib.Linearization

/-- What an operation answers in a state, and the state that it leaves. -/
structure SeqObject (ι S A : Type) where
  answer : ι → S → A
  apply : ι → S → S

variable {ι S A : Type}

/-! ### Replaying operations one after another -/

/-- The operations, run in this order, give these answers and end in the last state. -/
inductive Replays (o : SeqObject ι S A) (answers : ι → A) : List ι → S → S → Prop
  | nil (s : S) : Replays o answers [] s s
  | cons {i : ι} {is : List ι} {s s' : S} (answer : o.answer i s = answers i)
    (rest : Replays o answers is (o.apply i s) s') : Replays o answers (i :: is) s s'

theorem Replays.single {o : SeqObject ι S A} {answers : ι → A} {i : ι} {s s' : S}
    (hanswer : o.answer i s = answers i) (happly : o.apply i s = s') :
    Replays o answers [i] s s' := by
  rw [← happly]
  exact .cons hanswer (.nil _)

theorem Replays.append {o : SeqObject ι S A} {answers : ι → A} {is js : List ι} {s s' s'' : S}
    (h : Replays o answers is s s') (h' : Replays o answers js s' s'') :
    Replays o answers (is ++ js) s s'' := by
  induction h with
  | nil s => exact h'
  | cons hanswer _ ih => exact .cons hanswer (ih h')

/-- **Moments that replay one by one replay together.** -/
theorem Replays.flatMap_range {o : SeqObject ι S A} {answers : ι → A} {block : ℕ → List ι}
    {state : ℕ → S} {N : ℕ}
    (h : ∀ p < N, Replays o answers (block p) (state p) (state (p + 1))) :
    Replays o answers ((List.range N).flatMap block) (state 0) (state N) := by
  induction N with
  | zero => exact .nil _
  | succ N ih =>
    rw [List.range_succ, List.flatMap_append, List.flatMap_singleton]
    exact (ih fun p hp => h p (Nat.lt_succ_of_lt hp)).append (h N (Nat.lt_succ_self N))

/-! ### The order of the moments -/

/-- Where an operation is placed: its moment, and whether it comes right before
the call made there. -/
structure Place where
  moment : ℕ
  early : Bool
  deriving DecidableEq

/-- The operations placed at a moment. -/
def block (is : List ι) (place : ι → Place) (p : ℕ) : List ι :=
  (is.filter fun i => place i = ⟨p, true⟩) ++ is.filter fun i => place i = ⟨p, false⟩

/-- All operations by moment. -/
def order (is : List ι) (place : ι → Place) (N : ℕ) : List ι :=
  (List.range N).flatMap (block is place)

theorem mem_block {is : List ι} {place : ι → Place} {p : ℕ} {i : ι} :
    i ∈ block is place p ↔ i ∈ is ∧ (place i).moment = p := by
  rw [block, List.mem_append, List.mem_filter, List.mem_filter, decide_eq_true_iff,
    decide_eq_true_iff]
  rcases place i with ⟨m, early⟩
  cases early <;> simp

theorem nodup_block {is : List ι} (his : is.Nodup) (place : ι → Place) (p : ℕ) :
    (block is place p).Nodup := by
  rw [block, List.nodup_append']
  refine ⟨his.filter _, his.filter _, ?_⟩
  intro i hearly hlate
  rw [List.mem_filter, decide_eq_true_iff] at hearly hlate
  have hplace := hearly.2.symm.trans hlate.2
  exact absurd (congrArg Place.early hplace) Bool.true_eq_false.mp

section Filter

variable {P : ι → Prop} [DecidablePred P] {is : List ι} {i₀ : ι}

/-- Only one operation of the list has the property. -/
theorem filter_eq_singleton (his : is.Nodup) (hi₀ : i₀ ∈ is) (h₀ : P i₀)
    (honly : ∀ i ∈ is, P i → i = i₀) : (is.filter fun i => P i) = [i₀] := by
  rw [← List.perm_singleton, List.perm_ext_iff_of_nodup (his.filter _) (List.nodup_singleton i₀)]
  intro i
  rw [List.mem_filter, decide_eq_true_iff, List.mem_singleton]
  constructor
  · intro ⟨hi, hP⟩
    exact honly i hi hP
  · rintro rfl
    exact ⟨hi₀, h₀⟩

theorem filter_eq_nil (h₀ : ¬P i₀) (honly : ∀ i ∈ is, P i → i = i₀) :
    (is.filter fun i => P i) = [] := by
  rw [List.filter_eq_nil_iff]
  intro i hi hP
  rw [decide_eq_true_iff] at hP
  rw [honly i hi hP] at hP
  exact h₀ hP

end Filter

/-- **The order lists every operation once.** -/
theorem order_perm {is : List ι} (his : is.Nodup) {place : ι → Place} {N : ℕ}
    (hlt : ∀ i ∈ is, (place i).moment < N) : (order is place N).Perm is := by
  have hnodup : (order is place N).Nodup := by
    rw [order, List.nodup_flatMap]
    refine ⟨fun p _ => nodup_block his place p, ?_⟩
    refine List.Pairwise.imp ?_ (List.nodup_range (n := N))
    intro p q hpq i hp hq
    exact hpq ((mem_block.mp hp).2.symm.trans (mem_block.mp hq).2)
  rw [List.perm_ext_iff_of_nodup hnodup his]
  intro i
  rw [order, List.mem_flatMap]
  constructor
  · intro ⟨p, _, hi⟩
    exact (mem_block.mp hi).1
  · intro hi
    exact ⟨(place i).moment, List.mem_range.mpr (hlt i hi), mem_block.mpr ⟨hi, rfl⟩⟩

/-- **An operation at an earlier moment comes first.** -/
theorem order_sublist {is : List ι} {place : ι → Place} {N : ℕ} {i j : ι} (hi : i ∈ is)
    (hj : j ∈ is) (hij : (place i).moment < (place j).moment) (hlt : (place j).moment < N) :
    [i, j].Sublist (order is place N) := by
  have hmoments : [(place i).moment, (place j).moment].Sublist (List.range N) := by
    have hsplit : List.range N = List.range (place j).moment ++
        (List.range (N - (place j).moment)).map ((place j).moment + ·) := by
      rw [← List.range_add, Nat.add_sub_cancel' hlt.le]
    have hfirst : [(place i).moment].Sublist (List.range (place j).moment) :=
      List.singleton_sublist.mpr (List.mem_range.mpr hij)
    have hsecond : [(place j).moment].Sublist
        ((List.range (N - (place j).moment)).map ((place j).moment + ·)) :=
      List.singleton_sublist.mpr (List.mem_map.mpr
        ⟨0, List.mem_range.mpr (Nat.sub_pos_of_lt hlt), Nat.add_zero _⟩)
    rw [hsplit]
    exact hfirst.append hsecond
  have hblocks := hmoments.flatMap (block is place)
  rw [List.flatMap_cons, List.flatMap_singleton] at hblocks
  have hfirst : [i].Sublist (block is place (place i).moment) :=
    List.singleton_sublist.mpr (mem_block.mpr ⟨hi, rfl⟩)
  have hsecond : [j].Sublist (block is place (place j).moment) :=
    List.singleton_sublist.mpr (mem_block.mpr ⟨hj, rfl⟩)
  exact (hfirst.append hsecond).trans hblocks

/-! ### Where the elements that a function picks stand in a list -/

section Lists

variable {α β : Type} {f : α → Option β} {l : List α}

/-- Where the first collected element stands. -/
theorem filterMap_eq_cons_index {b : β} {bs : List β} (h : l.filterMap f = b :: bs) :
    ∃ (p : ℕ) (a : α), l[p]? = some a ∧ f a = some b ∧ (l.drop (p + 1)).filterMap f = bs ∧
      ∀ (q : ℕ) (d : α), l[q]? = some d → q < p → f d = none := by
  obtain ⟨l₁, a, l₂, rfl, hnone, ha, hbs⟩ := List.filterMap_eq_cons_iff.mp h
  refine ⟨l₁.length, a, ?_, ha, ?_, ?_⟩
  · rw [List.getElem?_append_right le_rfl, Nat.sub_self]
    rfl
  · rw [List.append_cons, List.drop_left' (by simp)]
    exact hbs
  · intro q d hq hlt
    rw [List.getElem?_append_left hlt] at hq
    exact hnone d (List.mem_of_getElem? hq)

/-- The only collected element. -/
theorem filterMap_eq_singleton_index {b : β} (h : l.filterMap f = [b]) :
    ∃ (p : ℕ) (a : α), l[p]? = some a ∧ f a = some b ∧
      ∀ (q : ℕ) (d : α), l[q]? = some d → q ≠ p → f d = none := by
  obtain ⟨p, a, hp, ha, hrest, hbefore⟩ := filterMap_eq_cons_index h
  refine ⟨p, a, hp, ha, fun q d hq hne => ?_⟩
  rcases Nat.lt_or_gt_of_ne hne with hlt | hgt
  · exact hbefore q d hq hlt
  · apply List.filterMap_eq_nil_iff.mp hrest d
    have hdrop : (l.drop (p + 1))[q - (p + 1)]? = some d := by
      rw [List.getElem?_drop, Nat.add_sub_cancel' hgt]
      exact hq
    exact List.mem_of_getElem? hdrop

/-- The only two collected elements. -/
theorem filterMap_eq_pair_index {b b' : β} (h : l.filterMap f = [b, b']) :
    ∃ (p q : ℕ) (a a' : α), p < q ∧ l[p]? = some a ∧ f a = some b ∧ l[q]? = some a' ∧ f a' = some b' ∧
      ∀ (r : ℕ) (d : α), l[r]? = some d → r ≠ p → r ≠ q → f d = none := by
  obtain ⟨p, a, hp, ha, hrest, hbefore⟩ := filterMap_eq_cons_index h
  obtain ⟨q, a', hq, ha', hnone⟩ := filterMap_eq_singleton_index hrest
  rw [List.getElem?_drop] at hq
  refine ⟨p, p + 1 + q, a, a', by omega, hp, ha, hq, ha', fun r d hr hne hne' => ?_⟩
  rcases Nat.lt_or_ge r p with hlt | hge
  · exact hbefore r d hr hlt
  · apply hnone (r - (p + 1)) d
    · rw [List.getElem?_drop, Nat.add_sub_cancel' (by omega)]
      exact hr
    · omega

end Lists

end ShareNotes.Lib.Linearization
