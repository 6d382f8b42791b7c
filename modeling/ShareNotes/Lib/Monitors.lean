import ShareNotes.Lib.Interaction

/-!
# Monitors: what a program may call, and when

A `Monitor` reads the calls of one program with their answers, keeps a state of
its own, and says in each state which calls are allowed. It may take something
about answers for granted. `Follows` is checked on the text of a program, for all
such answers, and is closed under `bind`; from it a run of the program follows
the monitor (`Follows.run`), and so does each thread of a pool, whatever the
other threads do (`Pool.exec_follows`).

`run_invariant` is the other half: a fact about the world that every answered
call keeps holds at the end of a run and before each of its calls.
-/

namespace ShareNotes.Lib.Monitors

open ShareNotes.Lib.Interaction
open Program

/-- Which calls are allowed, which answers are expected, and the state after an answer. -/
structure Monitor (Op : Type) (Res : Op → Type) (γ : Type) where
  allows : γ → Op → Prop
  expects : (op : Op) → Res op → Prop
  next : γ → (op : Op) → Res op → γ

variable {Op : Type} {Res : Op → Type} {α β γ σ : Type}

/-- Every call is allowed in the state in which it is made, and the result is accepted. -/
def Follows (m : Monitor Op Res γ) (Q : γ → α → Prop) : γ → Program Op Res α → Prop
  | g, .ret a => Q g a
  | g, .call op k => m.allows g op ∧ ∀ r, m.expects op r → Follows m Q (m.next g op r) (k r)

/-- Allowed calls of thread `t` are answered as expected, and keep a fact about the world. -/
def Monitor.Fits (m : Monitor Op Res γ) (h : Handler Op Res σ) (I : σ → Prop) (t : ℕ) : Prop :=
  ∀ g op s r s', I s → m.allows g op → h t op s = some (r, s') → m.expects op r ∧ I s'

/-- A monitor that expects nothing of answers fits every world. -/
theorem Monitor.fits_of_expects {m : Monitor Op Res γ} (hm : ∀ op r, m.expects op r)
    (h : Handler Op Res σ) (t : ℕ) : m.Fits h (fun _ => True) t :=
  fun _ op _ r _ _ _ _ => ⟨hm op r, trivial⟩

/-- The state after a list of answered calls. -/
def Monitor.after (m : Monitor Op Res γ) (g : γ) (es : List (Event Op Res σ)) : γ :=
  es.foldl (fun g e => m.next g e.op e.result) g

theorem Monitor.after_cons (m : Monitor Op Res γ) (g : γ) (e : Event Op Res σ)
    (es : List (Event Op Res σ)) : m.after g (e :: es) = m.after (m.next g e.op e.result) es := rfl

theorem Monitor.after_append (m : Monitor Op Res γ) (g : γ) (es es' : List (Event Op Res σ)) :
    m.after g (es ++ es') = m.after (m.after g es) es' :=
  List.foldl_append

/-! ### Programs -/

theorem follows_call {m : Monitor Op Res γ} {Q : γ → α → Prop} {g : γ} {op : Op}
    {k : Res op → Program Op Res α} :
    Follows m Q g (.call op k) ↔
      m.allows g op ∧ ∀ r, m.expects op r → Follows m Q (m.next g op r) (k r) := Iff.rfl

/-- A call that is always allowed and leaves the monitor's state as it is. -/
structure Monitor.Ignores (m : Monitor Op Res γ) (g : γ) (op : Op) : Prop where
  allows : m.allows g op
  next : ∀ r, m.next g op r = g

theorem follows_ignored {m : Monitor Op Res γ} {Q : γ → α → Prop} {g : γ} {op : Op}
    {k : Res op → Program Op Res α} (hop : m.Ignores g op)
    (hk : ∀ r, m.expects op r → Follows m Q g (k r)) : Follows m Q g (.call op k) := by
  refine ⟨hop.allows, fun r hr => ?_⟩
  rw [hop.next r]
  exact hk r hr

/-- **Sequencing.** -/
theorem Follows.bind {m : Monitor Op Res γ} {Q : γ → α → Prop} {Q' : γ → β → Prop} {g : γ}
    {p : Program Op Res α} {f : α → Program Op Res β} (hp : Follows m Q g p)
    (hf : ∀ g a, Q g a → Follows m Q' g (f a)) : Follows m Q' g (p >>= f) := by
  induction p generalizing g with
  | ret a => exact hf g a hp
  | call op k ih =>
    rw [call_bind, follows_call]
    exact ⟨hp.1, fun r hr => ih r (hp.2 r hr)⟩

/-- Accepting more results. -/
theorem Follows.imp {m : Monitor Op Res γ} {Q Q' : γ → α → Prop} {g : γ} {p : Program Op Res α}
    (hp : Follows m Q g p) (hQ : ∀ g a, Q g a → Q' g a) : Follows m Q' g p := by
  induction p generalizing g with
  | ret a => exact hQ g a hp
  | call op k ih => exact ⟨hp.1, fun r hr => ih r (hp.2 r hr)⟩

/-! ### Runs of one program -/

/-- **A run of a program follows the monitor.** -/
theorem Follows.run {h : Handler Op Res σ} {m : Monitor Op Res γ} {Q : γ → α → Prop} {g : γ}
    {I : σ → Prop} {t : ℕ} {p : Program Op Res α} (hp : Follows m Q g p) (hm : m.Fits h I t)
    {s s' : σ} {a : α} {es : List (Event Op Res σ)} (hI : I s)
    (hrun : Interaction.run h t p s = some (a, es, s')) :
    Q (m.after g es) a ∧
      ∀ pre e post, es = pre ++ e :: post → m.allows (m.after g pre) e.op := by
  induction p generalizing g s es with
  | ret b =>
    obtain ⟨rfl, rfl, rfl⟩ := of_run_ret hrun
    exact ⟨hp, fun pre e post hsplit => absurd hsplit (by simp)⟩
  | call op k ih =>
    obtain ⟨r, u, es', hop, hrest, rfl⟩ := (run_call_iff h t op k s s' a es).mp hrun
    obtain ⟨hr, hu⟩ := hm g op s r u hI hp.1 hop
    obtain ⟨hQ, hallows⟩ := ih r (hp.2 r hr) hu hrest
    refine ⟨hQ, fun pre e post hsplit => ?_⟩
    cases pre with
    | nil =>
      rw [List.nil_append, List.cons.injEq] at hsplit
      rw [← hsplit.1]
      exact hp.1
    | cons e' pre =>
      rw [List.cons_append, List.cons.injEq] at hsplit
      rw [← hsplit.1]
      exact hallows pre e post hsplit.2

/-- **A fact that every call keeps** holds at the end of a run, and at each call of it. -/
theorem run_invariant {h : Handler Op Res σ} {I : List (Event Op Res σ) → σ → Prop} {t : ℕ}
    (step : ∀ tr s op r s', I tr s → h t op s = some (r, s') → I (tr ++ [⟨t, op, s, r, s'⟩]) s')
    {p : Program Op Res α} {s s' : σ} {a : α} {es : List (Event Op Res σ)}
    (hrun : Interaction.run h t p s = some (a, es, s')) {tr : List (Event Op Res σ)} (hI : I tr s) :
    I (tr ++ es) s' ∧ ∀ pre e post, es = pre ++ e :: post →
      e.thread = t ∧ h t e.op e.before = some (e.result, e.after) ∧ I (tr ++ pre) e.before := by
  induction p generalizing s es tr with
  | ret b =>
    obtain ⟨rfl, rfl, rfl⟩ := of_run_ret hrun
    rw [List.append_nil]
    exact ⟨hI, fun pre e post hsplit => absurd hsplit (by simp)⟩
  | call op k ih =>
    obtain ⟨r, u, es', hop, hrest, rfl⟩ := (run_call_iff h t op k s s' a es).mp hrun
    obtain ⟨hend, hat⟩ := ih r hrest (step tr s op r u hI hop)
    rw [List.append_assoc, List.singleton_append] at hend
    refine ⟨hend, fun pre e post hsplit => ?_⟩
    cases pre with
    | nil =>
      rw [List.nil_append, List.cons.injEq] at hsplit
      rw [← hsplit.1, List.append_nil]
      exact ⟨rfl, hop, hI⟩
    | cons e' pre =>
      rw [List.cons_append, List.cons.injEq] at hsplit
      have hrec := hat pre e post hsplit.2
      rw [List.append_assoc, List.singleton_append, hsplit.1] at hrec
      exact hrec

/-! ### Threads of a pool -/

/-- The calls that one thread made. -/
def ofThread (t : ℕ) (es : List (Event Op Res σ)) : List (Event Op Res σ) :=
  es.filter fun e => e.thread == t

theorem ofThread_snoc_self {t : ℕ} (es : List (Event Op Res σ)) {e : Event Op Res σ}
    (he : e.thread = t) : ofThread t (es ++ [e]) = ofThread t es ++ [e] := by
  rw [ofThread, List.filter_append, List.filter_singleton, he, beq_self_eq_true]
  rfl

theorem ofThread_snoc_of_ne {t : ℕ} (es : List (Event Op Res σ)) {e : Event Op Res σ}
    (he : e.thread ≠ t) : ofThread t (es ++ [e]) = ofThread t es := by
  have hne : (e.thread == t) = false := by simpa using he
  rw [ofThread, List.filter_append, List.filter_singleton, hne]
  exact List.append_nil _

/-- **Each thread of a pool follows its monitor**, and so is each of its calls allowed. -/
theorem Pool.exec_follows {h : Handler Op Res σ} {m : ℕ → Monitor Op Res γ}
    {Q : ℕ → γ → α → Prop} {g : ℕ → γ} {I : σ → Prop} {c₀ : Pool Op Res α σ}
    (hm : ∀ t, (m t).Fits h I t) (hI : I c₀.world)
    (hp : ∀ t p, c₀.threads[t]? = some p → Follows (m t) (Q t) (g t) p)
    {ts : List ℕ} {es : List (Event Op Res σ)} {c : Pool Op Res α σ}
    (hrun : c₀.exec h ts = some (es, c)) :
    I c.world ∧
      (∀ t p, c.threads[t]? = some p →
        Follows (m t) (Q t) ((m t).after (g t) (ofThread t es)) p) ∧
      ∀ pre e post, es = pre ++ e :: post →
        I e.before ∧ (m e.thread).allows ((m e.thread).after (g e.thread)
          (ofThread e.thread pre)) e.op := by
  induction ts using List.reverseRecOn generalizing es c with
  | nil =>
    simp only [Pool.exec, Option.some.injEq, Prod.mk.injEq] at hrun
    obtain ⟨rfl, rfl⟩ := hrun
    exact ⟨hI, hp, fun pre e post hsplit => absurd hsplit (by simp)⟩
  | append_singleton ts t ih =>
    obtain ⟨es₁, c', e, h₁, hstep, rfl⟩ := (Pool.exec_snoc_iff h c₀ c ts t es).mp hrun
    obtain ⟨hworld, hthreads, hallows⟩ := ih h₁
    obtain ⟨op, k, r, w, hk, hop, rfl, rfl⟩ := (Pool.step_eq_some_iff h c' c t e).mp hstep
    have hcall := follows_call.mp (hthreads t _ hk)
    obtain ⟨hr, hw⟩ := hm t _ op c'.world r w hworld hcall.1 hop
    refine ⟨hw, ?_, ?_⟩
    · intro t' p hp'
      by_cases ht : t' = t
      · subst ht
        have hlt : t' < c'.threads.length := (List.getElem?_eq_some_iff.mp hk).1
        rw [List.getElem?_set_self hlt, Option.some.injEq] at hp'
        rw [ofThread_snoc_self (t := t') es₁ rfl, Monitor.after_append, ← hp']
        exact hcall.2 r hr
      · rw [List.getElem?_set_ne (Ne.symm ht)] at hp'
        rw [ofThread_snoc_of_ne (t := t') es₁ (Ne.symm ht)]
        exact hthreads t' p hp'
    · intro pre e post hsplit
      rcases List.eq_nil_or_concat post with hpost | ⟨init, last, hpost⟩
      · rw [hpost] at hsplit
        obtain ⟨hpre, he⟩ := List.append_inj' hsplit rfl
        rw [← hpre, ← (List.cons.inj he).1]
        exact ⟨hworld, hcall.1⟩
      · rw [hpost, List.concat_eq_append, ← List.cons_append, ← List.append_assoc] at hsplit
        exact hallows pre e init (List.append_inj' hsplit rfl).1

end ShareNotes.Lib.Monitors
