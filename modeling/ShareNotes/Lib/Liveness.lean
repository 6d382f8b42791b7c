import ShareNotes.Lib.Interaction

/-!
# Threads that are always answered

A program is a finite tree, so a pool of programs makes no infinite run
(`stepsTo_wf`). What can keep a thread from returning is a call that is never
answered. A `Contract` says which calls the world answers: in a world that is in
order, every call whose precondition holds, as long as it has the credits that the
call costs. The calls of other threads are seen through `rely` only.

`Live` is checked on the text of a program, call by call. When every thread of a pool
is live on credits that the world has (`Covered`), every way of scheduling them
ends with all of them returned (`Covered.alwaysReturns`).
-/

namespace ShareNotes.Lib.Liveness

open ShareNotes.Lib.Interaction
open Program

variable {Op : Type} {Res : Op → Type} {α σ : Type}

/-! ### Runs are finite -/

/-- A program goes on after its first call. -/
inductive GoesOn : Program Op Res α → Program Op Res α → Prop
  | call (op : Op) (k : Res op → Program Op Res α) (r : Res op) : GoesOn (k r) (.call op k)

theorem goesOn_wf : WellFounded (@GoesOn Op Res α) := by
  refine ⟨fun p => ?_⟩
  induction p with
  | ret a => exact ⟨_, fun q hq => nomatch hq⟩
  | call op k ih =>
    refine ⟨_, fun q hq => ?_⟩
    cases hq
    exact ih _

/-- The second pool makes one call and becomes the first. -/
def StepsTo (h : Handler Op Res σ) (c' c : Pool Op Res α σ) : Prop :=
  ∃ t e, c.step h t = some (e, c')

theorem coe_set_add {β : Type} {l : List β} {i : ℕ} {a : β} (ha : l[i]? = some a) (b : β) :
    (↑(l.set i b) : Multiset β) + {a} = ↑l + {b} := by
  obtain ⟨hi, rfl⟩ := List.getElem?_eq_some_iff.mp ha
  have hsplit : l = l.take i ++ l[i] :: l.drop (i + 1) := by
    rw [List.cons_getElem_drop_succ, List.take_append_drop]
  have hset : l.set i b = l.take i ++ b :: l.drop (i + 1) := by
    rw [List.set_eq_take_append_cons_drop, if_pos hi]
  have hl : (↑l : Multiset β) = ↑(l.take i) + ({l[i]} + ↑(l.drop (i + 1))) :=
    congrArg _ hsplit
  rw [hset, hl]
  show (↑(l.take i) : Multiset β) + ({b} + ↑(l.drop (i + 1))) + _ = _
  abel

/-- **No pool makes an infinite run.** -/
theorem stepsTo_wf (h : Handler Op Res σ) : WellFounded (@StepsTo Op Res α σ h) := by
  have hcut := InvImage.wf (fun c : Pool Op Res α σ => (↑c.threads : Multiset (Program Op Res α)))
    (@goesOn_wf Op Res α).cutExpand
  refine Subrelation.wf ?_ hcut
  intro c' c hstep
  obtain ⟨t, e, hstep⟩ := hstep
  obtain ⟨op, k, r, w, hk, _, _, rfl⟩ := (Pool.step_eq_some_iff h c c' t e).mp hstep
  refine ⟨{k r}, .call op k, ?_, coe_set_add hk (k r)⟩
  intro q hq
  rw [Multiset.mem_singleton.mp hq]
  exact .call op k r

/-- **Every way of scheduling the threads ends with all of them returned**: there is no
infinite run, and no reachable pool has a thread that neither returned nor can go on. -/
structure AlwaysReturns (h : Handler Op Res σ) (c₀ : Pool Op Res α σ) : Prop where
  progress : ∀ ts es c, c₀.exec h ts = some (es, c) → ∀ t p, c.threads[t]? = some p →
    (∃ a, p = .ret a) ∨ ∃ e c', c.step h t = some (e, c')
  ends : ¬∃ c : ℕ → Pool Op Res α σ, c 0 = c₀ ∧ ∀ n, ∃ t e, (c n).step h t = some (e, c (n + 1))
  finishes : ∀ ts es c, c₀.exec h ts = some (es, c) → ∃ us es' c', c.exec h us = some (es', c') ∧
    ∀ p ∈ c'.threads, ∃ a, p = .ret a

/-! ### Contracts -/

/-- Which calls a world answers. It is in order and has `n` credits (`inv n`); a call
spends its cost and is answered as promised, if its precondition holds. -/
structure Contract (h : Handler Op Res σ) where
  inv : ℕ → σ → Prop
  rely : σ → σ → Prop
  cost : Op → ℕ
  pre : Op → σ → Prop
  post : (op : Op) → Res op → σ → Prop
  refl : ∀ s, rely s s
  trans : ∀ {s₁ s₂ s₃}, rely s₁ s₂ → rely s₂ s₃ → rely s₁ s₃
  stable : ∀ {op s s'}, pre op s → rely s s' → pre op s'
  answers : ∀ {t op s n}, inv (n + cost op) s → pre op s →
    ∃ r s', h t op s = some (r, s') ∧ rely s s' ∧ inv n s' ∧ post op r s'

variable {h : Handler Op Res σ}

/-- Every call of the program meets its precondition, on so many credits in all, in every
world that the others may have left. -/
def Live (K : Contract h) : Program Op Res α → ℕ → σ → Prop
  | .ret _, _, _ => True
  | .call op k, b, s => K.pre op s ∧ K.cost op ≤ b ∧
    ∀ r s', K.rely s s' → K.post op r s' → Live K (k r) (b - K.cost op) s'

/-- A call that costs nothing. -/
theorem live_free {K : Contract h} {op : Op} {k : Res op → Program Op Res α} {b : ℕ} {s : σ}
    (hcost : K.cost op = 0) (hpre : K.pre op s)
    (hk : ∀ r s', K.rely s s' → K.post op r s' → Live K (k r) b s') : Live K (.call op k) b s := by
  refine ⟨hpre, by rw [hcost]; exact Nat.zero_le b, fun r s' hrely hpost => ?_⟩
  rw [hcost, Nat.sub_zero]
  exact hk r s' hrely hpost

/-- What the other threads do does not matter. -/
theorem Live.stable {K : Contract h} {p : Program Op Res α} {b : ℕ} {s s' : σ} (hp : Live K p b s)
    (hs : K.rely s s') : Live K p b s' := by
  cases p with
  | ret a => trivial
  | call op k =>
    obtain ⟨hpre, hcost, hk⟩ := hp
    exact ⟨K.stable hpre hs, hcost, fun r s'' hs' hpost => hk r s'' (K.trans hs hs') hpost⟩

/-- **A live program on its own** runs to an end. -/
theorem Live.run {K : Contract h} {t : ℕ} {p : Program Op Res α} {b n : ℕ} {s : σ}
    (hp : Live K p b s) (hs : K.inv (n + b) s) :
    ∃ a es s', Interaction.run h t p s = some (a, es, s') := by
  induction p generalizing b s with
  | ret a => exact ⟨a, [], s, rfl⟩
  | call op k ih =>
    obtain ⟨hpre, hcost, hk⟩ := hp
    have hspent : n + b = n + (b - K.cost op) + K.cost op := by omega
    rw [hspent] at hs
    obtain ⟨r, s', hop, hrely, hs', hpost⟩ := K.answers (t := t) hs hpre
    obtain ⟨a, es, s'', hrest⟩ := ih r (hk r s' hrely hpost) hs'
    exact ⟨a, _, s'', (run_call_iff h t op k s s'' a _).mpr ⟨r, s', es, hop, hrest, rfl⟩⟩

/-! ### Pools -/

/-- Every thread is live on credits of its own, which the world has together. -/
def Covered (K : Contract h) (c : Pool Op Res α σ) : Prop :=
  ∃ b : ℕ → ℕ, K.inv (∑ t ∈ Finset.range c.threads.length, b t) c.world ∧
    ∀ t p, c.threads[t]? = some p → Live K p (b t) c.world

/-- **The next call of a thread is answered**, and its answer leaves the pool covered. -/
theorem Covered.step {K : Contract h} {c : Pool Op Res α σ} (hc : Covered K c) {t : ℕ} {op : Op}
    {k : Res op → Program Op Res α} (ht : c.threads[t]? = some (.call op k)) :
    ∃ e c', c.step h t = some (e, c') ∧ Covered K c' := by
  obtain ⟨b, hinv, hlive⟩ := hc
  obtain ⟨hpre, hcost, hk⟩ := hlive t _ ht
  have hmem : t ∈ Finset.range c.threads.length :=
    Finset.mem_range.mpr (List.getElem?_eq_some_iff.mp ht).1
  have hsum := Finset.add_sum_erase _ b hmem
  have hspent : ∑ u ∈ Finset.range c.threads.length, b u =
      (b t - K.cost op + ∑ u ∈ (Finset.range c.threads.length).erase t, b u) + K.cost op := by
    omega
  rw [hspent] at hinv
  obtain ⟨r, s', hop, hrely, hinv', hpost⟩ := K.answers (t := t) hinv hpre
  refine ⟨_, _, (Pool.step_eq_some_iff h c _ t _).mpr ⟨op, k, r, s', ht, hop, rfl, rfl⟩, ?_⟩
  refine ⟨Function.update b t (b t - K.cost op), ?_, fun u p hu => ?_⟩
  · show K.inv (∑ u ∈ Finset.range (c.threads.set t (k r)).length, _) s'
    rw [List.length_set, ← Finset.add_sum_erase _ _ hmem, Function.update_self,
      Finset.sum_congr rfl fun u hu => Function.update_of_ne (Finset.ne_of_mem_erase hu) _ _]
    exact hinv'
  · change (c.threads.set t (k r))[u]? = some p at hu
    by_cases hut : u = t
    · subst hut
      rw [List.getElem?_set_self (List.getElem?_eq_some_iff.mp ht).1, Option.some.injEq] at hu
      rw [← hu, Function.update_self]
      exact hk r s' hrely hpost
    · rw [List.getElem?_set_ne (Ne.symm hut)] at hu
      rw [Function.update_of_ne hut]
      exact (hlive u p hu).stable hrely

/-- A covered pool stays covered, whatever is scheduled. -/
theorem Covered.exec {K : Contract h} {c₀ c : Pool Op Res α σ} (hc₀ : Covered K c₀)
    {ts : List ℕ} {es : List (Event Op Res σ)} (hrun : c₀.exec h ts = some (es, c)) :
    Covered K c := by
  refine Pool.exec_induction h (P := fun _ _ c => Covered K c) hc₀ ?_ hrun
  intro ts es c t e c' _ ih hstep
  obtain ⟨op, k, _, _, ht, _⟩ := (Pool.step_eq_some_iff h c c' t e).mp hstep
  obtain ⟨e', c'', hstep', hc''⟩ := ih.step ht
  rw [hstep, Option.some.injEq, Prod.mk.injEq] at hstep'
  rw [hstep'.2]
  exact hc''

theorem Covered.progress {K : Contract h} {c : Pool Op Res α σ} (hc : Covered K c) {t : ℕ}
    {p : Program Op Res α} (hp : c.threads[t]? = some p) :
    (∃ a, p = .ret a) ∨ ∃ e c', c.step h t = some (e, c') := by
  cases p with
  | ret a => exact Or.inl ⟨a, rfl⟩
  | call op k =>
    obtain ⟨e, c', hstep, _⟩ := hc.step hp
    exact Or.inr ⟨e, c', hstep⟩

/-- A covered pool can be run until every thread has returned. -/
theorem Covered.finishes {K : Contract h} {c : Pool Op Res α σ} (hc : Covered K c) :
    ∃ us es' c', c.exec h us = some (es', c') ∧ ∀ p ∈ c'.threads, ∃ a, p = .ret a := by
  induction c using (stepsTo_wf h).induction with
  | _ c ih =>
    by_cases hall : ∀ p ∈ c.threads, ∃ a, p = .ret a
    · exact ⟨[], [], c, rfl, hall⟩
    · push Not at hall
      obtain ⟨p, hp, hret⟩ := hall
      obtain ⟨t, ht⟩ := List.mem_iff_getElem?.mp hp
      cases p with
      | ret a => exact absurd rfl (hret a)
      | call op k =>
        obtain ⟨e, c', hstep, hc'⟩ := hc.step ht
        obtain ⟨us, es', c'', hrun, hdone⟩ := ih c' ⟨t, e, hstep⟩ hc'
        exact ⟨t :: us, e :: es', c'', (Pool.exec_cons_iff h c c'' t us _).mpr
          ⟨e, c', es', hstep, hrun, rfl⟩, hdone⟩

/-- **A covered pool always returns.** -/
theorem Covered.alwaysReturns {K : Contract h} {c₀ : Pool Op Res α σ} (hc₀ : Covered K c₀) :
    AlwaysReturns h c₀ where
  progress := fun _ _ _ hrun _ _ hp => (hc₀.exec hrun).progress hp
  ends := by
    rintro ⟨c, _, hsteps⟩
    exact (wellFounded_iff_isEmpty_descending_chain.mp (stepsTo_wf h)).false ⟨c, hsteps⟩
  finishes := fun _ _ _ hrun => (hc₀.exec hrun).finishes

end ShareNotes.Lib.Liveness
