import Mathlib

/-!
# Programs that call on a shared world

A `Program` has returned, or makes one call and goes on with its result. The
world answers calls through a `Handler`; a call that is never answered is
`none`. The same program is run in two ways: to completion on its own (`run`,
and `runAll` for one program after another), or as one thread of a `Pool` whose
schedule says which thread makes the next call.

Both ways record their calls as `Event`s, and each grows by one step at its end:
a fact about runs is proved for the empty run and carried across one call
(`Pool.exec_induction`) or across one program (`runAll_snoc_iff`).
-/

namespace ShareNotes.Lib.Interaction

/-- A program over the calls `Op`, where the call `op` is answered in `Res op`. -/
inductive Program (Op : Type) (Res : Op → Type) (α : Type) : Type
  | ret (a : α)
  | call (op : Op) (k : Res op → Program Op Res α)

namespace Program

variable {Op : Type} {Res : Op → Type} {α β : Type}

/-- Run the first program, and the second on what it returns. -/
def bind : Program Op Res α → (α → Program Op Res β) → Program Op Res β
  | ret a, f => f a
  | call op k, f => call op fun r => (k r).bind f

instance : Monad (Program Op Res) where
  pure := ret
  bind := bind

@[simp] theorem pure_eq (a : α) : (pure a : Program Op Res α) = ret a := rfl

@[simp] theorem ret_bind (a : α) (f : α → Program Op Res β) : ret a >>= f = f a := rfl

@[simp] theorem call_bind (op : Op) (k : Res op → Program Op Res α)
    (f : α → Program Op Res β) : call op k >>= f = call op fun r => k r >>= f := rfl

/-- What a program has returned. -/
def returned : Program Op Res α → Option α
  | ret a => some a
  | call _ _ => none

theorem eq_ret_of_returned {p : Program Op Res α} {a : α} (h : p.returned = some a) :
    p = ret a := by
  cases p with
  | ret b => rw [Option.some.inj h]
  | call op k => exact absurd h (by simp [returned])

end Program

open Program

/-- How the world answers a call of thread `t`; `none` when the call never returns. -/
abbrev Handler (Op : Type) (Res : Op → Type) (σ : Type) :=
  (t : ℕ) → (op : Op) → σ → Option (Res op × σ)

/-- One answered call, with the world before and after it. -/
structure Event (Op : Type) (Res : Op → Type) (σ : Type) where
  thread : ℕ
  op : Op
  before : σ
  result : Res op
  after : σ

section Sequential

variable {Op : Type} {Res : Op → Type} {α β σ : Type} (h : Handler Op Res σ)

/-- Run one program to completion. -/
def run (t : ℕ) : Program Op Res α → σ → Option (α × List (Event Op Res σ) × σ)
  | .ret a, s => some (a, [], s)
  | .call op k, s =>
    (h t op s).bind fun p =>
      (run t (k p.1) p.2).map fun q => (q.1, ⟨t, op, s, p.1, p.2⟩ :: q.2.1, q.2.2)

@[simp] theorem run_ret (t : ℕ) (a : α) (s : σ) : run h t (.ret a) s = some (a, [], s) := rfl

/-- A run that makes no call. -/
theorem of_run_ret {h : Handler Op Res σ} {t : ℕ} {a b : α} {s s' : σ}
    {es : List (Event Op Res σ)} (hrun : run h t (.ret b) s = some (a, es, s')) :
    a = b ∧ es = [] ∧ s' = s := by
  rw [run_ret, Option.some.injEq, Prod.mk.injEq, Prod.mk.injEq] at hrun
  exact ⟨hrun.1.symm, hrun.2.1.symm, hrun.2.2.symm⟩

/-- A run of a call is the answer to it and a run of what follows. -/
theorem run_call_iff (t : ℕ) (op : Op) (k : Res op → Program Op Res α) (s s'' : σ) (a : α)
    (es : List (Event Op Res σ)) :
    run h t (.call op k) s = some (a, es, s'') ↔
      ∃ r s' es', h t op s = some (r, s') ∧ run h t (k r) s' = some (a, es', s'') ∧
        es = ⟨t, op, s, r, s'⟩ :: es' := by
  simp only [run, Option.bind_eq_some_iff, Option.map_eq_some_iff, Prod.exists, Prod.mk.injEq]
  constructor
  · intro ⟨r, s', hop, b, es', u, hk, hb, he, hu⟩
    subst hb hu
    exact ⟨r, s', es', hop, hk, he.symm⟩
  · intro ⟨r, s', es', hop, hk, he⟩
    exact ⟨r, s', hop, a, es', s'', hk, rfl, he.symm, rfl⟩

/-- What one program did: who ran it, what it returned, and the calls it made. -/
structure Outcome (Op : Type) (Res : Op → Type) (α σ : Type) where
  thread : ℕ
  answer : α
  events : List (Event Op Res σ)

/-- Run programs one after another, each under its thread number. -/
def runAll : List (ℕ × Program Op Res α) → σ → Option (List (Outcome Op Res α σ) × σ)
  | [], s => some ([], s)
  | (t, p) :: ps, s =>
    (run h t p s).bind fun q =>
      (runAll ps q.2.2).map fun r => (⟨t, q.1, q.2.1⟩ :: r.1, r.2)

@[simp] theorem runAll_nil (s : σ) : runAll h ([] : List (ℕ × Program Op Res α)) s = some ([], s) :=
  rfl

theorem runAll_cons_iff (t : ℕ) (p : Program Op Res α) (ps : List (ℕ × Program Op Res α))
    (s s'' : σ) (os : List (Outcome Op Res α σ)) :
    runAll h ((t, p) :: ps) s = some (os, s'') ↔
      ∃ a es s' os', run h t p s = some (a, es, s') ∧ runAll h ps s' = some (os', s'') ∧
        os = ⟨t, a, es⟩ :: os' := by
  simp only [runAll, Option.bind_eq_some_iff, Option.map_eq_some_iff, Prod.exists, Prod.mk.injEq]
  constructor
  · intro ⟨a, es, s', hp, os', u, hps, ho, hu⟩
    subst hu
    exact ⟨a, es, s', os', hp, hps, ho.symm⟩
  · intro ⟨a, es, s', os', hp, hps, ho⟩
    exact ⟨a, es, s', hp, os', s'', hps, ho.symm, rfl⟩

theorem runAll_append_iff (ps qs : List (ℕ × Program Op Res α)) (s s'' : σ)
    (os : List (Outcome Op Res α σ)) :
    runAll h (ps ++ qs) s = some (os, s'') ↔
      ∃ os₁ s' os₂, runAll h ps s = some (os₁, s') ∧ runAll h qs s' = some (os₂, s'') ∧
        os = os₁ ++ os₂ := by
  induction ps generalizing s os with
  | nil => simp
  | cons p ps ih =>
    obtain ⟨t, p⟩ := p
    rw [List.cons_append, runAll_cons_iff]
    constructor
    · intro ⟨a, es, s', os', hp, hrest, ho⟩
      obtain ⟨os₁, u, os₂, h₁, h₂, hos⟩ := (ih s' os').mp hrest
      refine ⟨⟨t, a, es⟩ :: os₁, u, os₂, ?_, h₂, by rw [ho, hos, List.cons_append]⟩
      rw [runAll_cons_iff]
      exact ⟨a, es, s', os₁, hp, h₁, rfl⟩
    · intro ⟨os₁, u, os₂, h₁, h₂, ho⟩
      obtain ⟨a, es, s', os', hp, hps, hos⟩ := (runAll_cons_iff h t p ps s u os₁).mp h₁
      refine ⟨a, es, s', os' ++ os₂, hp, (ih s' (os' ++ os₂)).mpr ?_, ?_⟩
      · exact ⟨os', u, os₂, hps, h₂, rfl⟩
      · rw [ho, hos, List.cons_append]

theorem runAll_snoc_iff (ps : List (ℕ × Program Op Res α)) (t : ℕ) (p : Program Op Res α)
    (s s'' : σ) (os : List (Outcome Op Res α σ)) :
    runAll h (ps ++ [(t, p)]) s = some (os, s'') ↔
      ∃ os₁ s' a es, runAll h ps s = some (os₁, s') ∧ run h t p s' = some (a, es, s'') ∧
        os = os₁ ++ [⟨t, a, es⟩] := by
  rw [runAll_append_iff]
  constructor
  · intro ⟨os₁, s', os₂, h₁, h₂, ho⟩
    obtain ⟨a, es, u, os', hp, hnil, hos⟩ := (runAll_cons_iff h t p [] s' s'' os₂).mp h₂
    simp only [runAll_nil, Option.some.injEq, Prod.mk.injEq] at hnil
    obtain ⟨rfl, rfl⟩ := hnil
    exact ⟨os₁, s', a, es, h₁, hp, by rw [ho, hos]⟩
  · intro ⟨os₁, s', a, es, h₁, hp, ho⟩
    refine ⟨os₁, s', [⟨t, a, es⟩], h₁, ?_, ho⟩
    rw [runAll_cons_iff]
    exact ⟨a, es, s'', [], hp, rfl, rfl⟩

end Sequential

section Concurrent

variable {Op : Type} {Res : Op → Type} {α σ : Type} (h : Handler Op Res σ)

/-- Threads that share one world. -/
structure Pool (Op : Type) (Res : Op → Type) (α σ : Type) where
  world : σ
  threads : List (Program Op Res α)

/-- Thread `t` makes its next call. A thread that has returned makes none. -/
def Pool.step (c : Pool Op Res α σ) (t : ℕ) : Option (Event Op Res σ × Pool Op Res α σ) :=
  match c.threads[t]? with
  | some (.call op k) =>
    (h t op c.world).map fun p =>
      (⟨t, op, c.world, p.1, p.2⟩, ⟨p.2, c.threads.set t (k p.1)⟩)
  | _ => none

/-- Run a schedule: the list of threads in the order in which they make their calls. -/
def Pool.exec : Pool Op Res α σ → List ℕ → Option (List (Event Op Res σ) × Pool Op Res α σ)
  | c, [] => some ([], c)
  | c, t :: ts =>
    (c.step h t).bind fun p => (Pool.exec p.2 ts).map fun q => (p.1 :: q.1, q.2)

/-- **What one step of a pool does**, guards included. -/
theorem Pool.step_eq_some_iff (c c' : Pool Op Res α σ) (t : ℕ) (e : Event Op Res σ) :
    c.step h t = some (e, c') ↔
      ∃ op k r w, c.threads[t]? = some (.call op k) ∧ h t op c.world = some (r, w) ∧
        e = ⟨t, op, c.world, r, w⟩ ∧ c' = ⟨w, c.threads.set t (k r)⟩ := by
  unfold Pool.step
  split
  · rename_i op k hk
    rw [Option.map_eq_some_iff]
    constructor
    · intro ⟨p, hp, he⟩
      rw [Prod.mk.injEq] at he
      exact ⟨op, k, p.1, p.2, hk, hp, he.1.symm, he.2.symm⟩
    · intro ⟨op', k', r, w, hk', hop, he, hc⟩
      rw [hk, Option.some.injEq, Program.call.injEq] at hk'
      obtain ⟨rfl, hkk⟩ := hk'
      obtain rfl := eq_of_heq hkk
      exact ⟨(r, w), hop, by rw [he, hc]⟩
  · rename_i hno
    constructor
    · intro hf
      exact absurd hf (by simp)
    · intro ⟨op, k, r, w, hk, _⟩
      exact absurd hk (hno op k)

theorem Pool.exec_cons_iff (c c'' : Pool Op Res α σ) (t : ℕ) (ts : List ℕ)
    (es : List (Event Op Res σ)) :
    c.exec h (t :: ts) = some (es, c'') ↔
      ∃ e c' es', c.step h t = some (e, c') ∧ c'.exec h ts = some (es', c'') ∧
        es = e :: es' := by
  simp only [Pool.exec, Option.bind_eq_some_iff, Option.map_eq_some_iff, Prod.exists, Prod.mk.injEq]
  constructor
  · intro ⟨e, c', hstep, es', d, hrest, he, hd⟩
    subst hd
    exact ⟨e, c', es', hstep, hrest, he.symm⟩
  · intro ⟨e, c', es', hstep, hrest, he⟩
    exact ⟨e, c', hstep, es', c'', hrest, he.symm, rfl⟩

theorem Pool.exec_append_iff (c c'' : Pool Op Res α σ) (ts us : List ℕ)
    (es : List (Event Op Res σ)) :
    c.exec h (ts ++ us) = some (es, c'') ↔
      ∃ es₁ c' es₂, c.exec h ts = some (es₁, c') ∧ c'.exec h us = some (es₂, c'') ∧
        es = es₁ ++ es₂ := by
  induction ts generalizing c es with
  | nil => simp [Pool.exec]
  | cons t ts ih =>
    rw [List.cons_append, Pool.exec_cons_iff]
    constructor
    · intro ⟨e, d, es', hstep, hrest, he⟩
      obtain ⟨es₁, c', es₂, h₁, h₂, hes⟩ := (ih d es').mp hrest
      refine ⟨e :: es₁, c', es₂, ?_, h₂, by rw [he, hes, List.cons_append]⟩
      rw [Pool.exec_cons_iff]
      exact ⟨e, d, es₁, hstep, h₁, rfl⟩
    · intro ⟨es₁, c', es₂, h₁, h₂, he⟩
      obtain ⟨e, d, es', hstep, hrest, hes⟩ := (Pool.exec_cons_iff h c c' t ts es₁).mp h₁
      refine ⟨e, d, es' ++ es₂, hstep, (ih d (es' ++ es₂)).mpr ?_, ?_⟩
      · exact ⟨es', c', es₂, hrest, h₂, rfl⟩
      · rw [he, hes, List.cons_append]

theorem Pool.exec_snoc_iff (c c'' : Pool Op Res α σ) (ts : List ℕ) (t : ℕ)
    (es : List (Event Op Res σ)) :
    c.exec h (ts ++ [t]) = some (es, c'') ↔
      ∃ es₁ c' e, c.exec h ts = some (es₁, c') ∧ c'.step h t = some (e, c'') ∧
        es = es₁ ++ [e] := by
  rw [Pool.exec_append_iff]
  constructor
  · intro ⟨es₁, c', es₂, h₁, h₂, he⟩
    obtain ⟨e, d, es', hstep, hnil, hes⟩ := (Pool.exec_cons_iff h c' c'' t [] es₂).mp h₂
    simp only [Pool.exec, Option.some.injEq, Prod.mk.injEq] at hnil
    obtain ⟨rfl, rfl⟩ := hnil
    exact ⟨es₁, c', e, h₁, hstep, by rw [he, hes]⟩
  · intro ⟨es₁, c', e, h₁, hstep, he⟩
    refine ⟨es₁, c', [e], h₁, ?_, he⟩
    rw [Pool.exec_cons_iff]
    exact ⟨e, c'', [], hstep, rfl, rfl⟩

/-- **Induction over schedules.** A fact that holds before the first call and
survives one more call of any thread holds after every schedule. -/
theorem Pool.exec_induction {c₀ : Pool Op Res α σ}
    {P : List ℕ → List (Event Op Res σ) → Pool Op Res α σ → Prop}
    (nil : P [] [] c₀)
    (snoc : ∀ ts es c t e c', c₀.exec h ts = some (es, c) → P ts es c →
      c.step h t = some (e, c') → P (ts ++ [t]) (es ++ [e]) c')
    {ts : List ℕ} {es : List (Event Op Res σ)} {c : Pool Op Res α σ}
    (hrun : c₀.exec h ts = some (es, c)) : P ts es c := by
  induction ts using List.reverseRecOn generalizing es c with
  | nil =>
    simp only [Pool.exec, Option.some.injEq, Prod.mk.injEq] at hrun
    obtain ⟨rfl, rfl⟩ := hrun
    exact nil
  | append_singleton ts t ih =>
    obtain ⟨es₁, c', e, h₁, hstep, he⟩ := (Pool.exec_snoc_iff h c₀ c ts t es).mp hrun
    subst he
    exact snoc ts es₁ c' t e c h₁ (ih h₁) hstep

/-- Calls are made by threads of the pool, and no thread disappears. -/
theorem Pool.exec_threads {c₀ c : Pool Op Res α σ} {ts : List ℕ} {es : List (Event Op Res σ)}
    (hrun : c₀.exec h ts = some (es, c)) :
    c.threads.length = c₀.threads.length ∧ ∀ e ∈ es, e.thread < c₀.threads.length := by
  refine Pool.exec_induction h (P := fun _ es c => c.threads.length = c₀.threads.length ∧
    ∀ e ∈ es, e.thread < c₀.threads.length) ?_ ?_ hrun
  · exact ⟨rfl, fun e he => absurd he List.not_mem_nil⟩
  · intro ts es c t e c' _ ⟨hlen, hall⟩ hstep
    obtain ⟨op, k, r, w, hk, _, rfl, rfl⟩ := (Pool.step_eq_some_iff h c c' t e).mp hstep
    have ht : t < c.threads.length := (List.getElem?_eq_some_iff.mp hk).1
    rw [hlen] at ht
    refine ⟨List.length_set.trans hlen, fun e he => ?_⟩
    rcases List.mem_append.mp he with hold | hnew
    · exact hall e hold
    · rw [List.mem_singleton.mp hnew]
      exact ht

/-! ### The worlds of a trace -/

/-- The world after the first `p` calls of a trace that starts in `s`. -/
def stateAt (s : σ) (es : List (Event Op Res σ)) : ℕ → σ
  | 0 => s
  | p + 1 => (es[p]?).elim (stateAt s es p) Event.after

theorem stateAt_succ (s : σ) {es : List (Event Op Res σ)} {p : ℕ} {e : Event Op Res σ}
    (he : es[p]? = some e) : stateAt s es (p + 1) = e.after := by
  rw [stateAt, he]
  rfl

theorem stateAt_append (s : σ) (es es' : List (Event Op Res σ)) {p : ℕ} (hp : p ≤ es.length) :
    stateAt s (es ++ es') p = stateAt s es p := by
  induction p with
  | zero => rfl
  | succ p ih => rw [stateAt, stateAt, List.getElem?_append_left hp, ih (by omega)]

/-- **Each call of a pool is answered in the world that the calls before it left.** -/
theorem Pool.exec_states {c₀ c : Pool Op Res α σ} {ts : List ℕ} {es : List (Event Op Res σ)}
    (hrun : c₀.exec h ts = some (es, c)) :
    c.world = stateAt c₀.world es es.length ∧
      ∀ p e, es[p]? = some e →
        e.before = stateAt c₀.world es p ∧
          h e.thread e.op e.before = some (e.result, e.after) := by
  refine Pool.exec_induction h (P := fun _ es c => c.world = stateAt c₀.world es es.length ∧
    ∀ p e, es[p]? = some e → e.before = stateAt c₀.world es p ∧
      h e.thread e.op e.before = some (e.result, e.after)) ?_ ?_ hrun
  · exact ⟨rfl, fun p e he => absurd he (by simp)⟩
  · intro ts es c t e c' _ ⟨hworld, hat⟩ hstep
    obtain ⟨op, k, r, w, _, hop, rfl, rfl⟩ := (Pool.step_eq_some_iff h c c' t e).mp hstep
    constructor
    · rw [List.length_append, List.length_singleton,
        stateAt_succ c₀.world (List.getElem?_concat_length ..)]
    · intro p e he
      rcases Nat.lt_or_ge p es.length with hp | hp
      · rw [List.getElem?_append_left hp] at he
        rw [stateAt_append _ _ _ hp.le]
        exact hat p e he
      · have hlast : p = es.length := by
          have hlt := (List.getElem?_eq_some_iff.mp he).1
          rw [List.length_append, List.length_singleton] at hlt
          omega
        subst hlast
        rw [List.getElem?_concat_length, Option.some.injEq] at he
        rw [stateAt_append _ _ _ le_rfl, ← hworld, ← he]
        exact ⟨rfl, hop⟩

end Concurrent

end ShareNotes.Lib.Interaction
