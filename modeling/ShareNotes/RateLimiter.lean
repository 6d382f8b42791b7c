import ShareNotes.Runs

/-!
# The rate limiter

`tooManyRequests` compares a reading of the wall clock with the reading at which
it admitted a request last. Two admitted requests are therefore always more than
the time span apart, and no subtraction of the comparison wraps. But the
difference is negative when the clock was set back, and a negative difference is
at most the time span: all requests are refused until the clock has come back to
where it was. So what is refused is a burst exactly as long as no reading lies
before the one of the last admitted request.

The calls of the limiter in any interleaving of requests are one such sequence.
-/

namespace ShareNotes.RateLimiter

open ShareNotes.Lib.Interaction
open ShareNotes.Manager ShareNotes.Calls ShareNotes.Handlers ShareNotes.Runs

/-- One call: `lastRequestTime` before it, the reading, and the answer. -/
structure Decision where
  lastRequestTime : ℤ
  currentTime : ℤ
  refused : Bool
  deriving DecidableEq

/-- The calls for readings of the clock, one after another. -/
def decisions : ℤ → List ℤ → List Decision
  | _, [] => []
  | lastRequestTime, currentTime :: readings =>
    let p := tooManyRequests lastRequestTime currentTime
    ⟨lastRequestTime, currentTime, p.1⟩ :: decisions p.2 readings

/-- The readings of the requests that were admitted. -/
def admitted (ds : List Decision) : List ℤ :=
  (ds.filter fun d => !d.refused).map Decision.currentTime

/-- Requests admitted one after the other are more than the time span apart. -/
def Spaced (ds : List Decision) : Prop :=
  (admitted ds).IsChain fun t u => tooManyRequestTimeSpanInNs < u - t

/-- The subtractions that are made, all but those behind the first test, do not wrap. -/
def NoneWraps (ds : List Decision) : Prop :=
  ∀ d ∈ ds, minInt64 < d.lastRequestTime →
    wrapInt64 (d.currentTime - d.lastRequestTime) = d.currentTime - d.lastRequestTime

/-- A request is refused only in the time span after the last admitted one. -/
def OnlyBursts (ds : List Decision) : Prop :=
  ∀ front d back, ds = front ++ d :: back → d.refused = true →
    ∃ last, (admitted front).getLast? = some last ∧ last ≤ d.currentTime ∧
      d.currentTime ≤ last + tooManyRequestTimeSpanInNs

/-- The clock is never behind `lastRequestTime`. -/
def NotSetBack (ds : List Decision) : Prop := ∀ d ∈ ds, d.lastRequestTime ≤ d.currentTime

/-- A reading of the wall clock that `UnixNano` can return since 1970. -/
def InRange (currentTime : ℤ) : Prop := 0 ≤ currentTime ∧ currentTime < 2 ^ 63

/-! ### One call -/

theorem wrapInt64_sub {t u : ℤ} (ht : InRange t) (hu : InRange u) : wrapInt64 (u - t) = u - t := by
  obtain ⟨ht0, ht⟩ := ht
  obtain ⟨hu0, hu⟩ := hu
  rw [wrapInt64, Int.bmod_eq_of_le_mul_two] <;> omega

theorem tooManyRequests_first (currentTime : ℤ) :
    tooManyRequests minInt64 currentTime = (false, currentTime) :=
  if_neg fun h => absurd h.1 (lt_irrefl _)

theorem minInt64_lt {t : ℤ} (ht : InRange t) : minInt64 < t := by
  have := ht.1
  rw [minInt64]
  omega

/-- **A request is refused** when the difference is at most the time span, negative or not. -/
theorem tooManyRequests_later {t u : ℤ} (ht : InRange t) (hu : InRange u) :
    tooManyRequests t u =
      if u - t ≤ tooManyRequestTimeSpanInNs then (true, t) else (false, u) := by
  rw [tooManyRequests, wrapInt64_sub ht hu]
  by_cases hspan : u - t ≤ tooManyRequestTimeSpanInNs
  · rw [if_pos ⟨minInt64_lt ht, hspan⟩, if_pos hspan]
  · rw [if_neg fun h => hspan h.2, if_neg hspan]

/-! ### All calls -/

theorem admitted_cons (d : Decision) (ds : List Decision) :
    admitted (d :: ds) = if d.refused then admitted ds else d.currentTime :: admitted ds := by
  rw [admitted, List.filter_cons]
  cases d.refused <;> rfl

theorem tooManyRequests_snd (t u : ℤ) :
    (tooManyRequests t u).2 = if (tooManyRequests t u).1 then t else u := by
  rw [tooManyRequests]
  split <;> rfl

theorem map_currentTime (t : ℤ) (readings : List ℤ) :
    (decisions t readings).map Decision.currentTime = readings := by
  induction readings generalizing t with
  | nil => rfl
  | cons u readings ih => rw [decisions, List.map_cons, ih]

/-- **What a call compares with** is the reading of the last admitted request. -/
theorem lastRequestTime_eq {t : ℤ} {readings : List ℤ} {front back : List Decision} {d : Decision}
    (h : decisions t readings = front ++ d :: back) :
    d.lastRequestTime = (admitted front).getLastD t ∧ d.currentTime ∈ readings ∧
      d.refused = (tooManyRequests d.lastRequestTime d.currentTime).1 := by
  induction readings generalizing t front with
  | nil => exact absurd h (by simp [decisions])
  | cons u readings ih =>
    rw [decisions] at h
    cases front with
    | nil =>
      rw [List.nil_append, List.cons.injEq] at h
      rw [← h.1]
      exact ⟨rfl, List.mem_cons_self, rfl⟩
    | cons d' front =>
      rw [List.cons_append, List.cons.injEq] at h
      obtain ⟨hlast, hmem, hrefused⟩ := ih h.2
      refine ⟨?_, List.mem_cons_of_mem u hmem, hrefused⟩
      rw [hlast, admitted_cons, ← h.1, tooManyRequests_snd]
      cases (tooManyRequests t u).1 with
      | true => rfl
      | false => exact (List.getLastD_cons ..).symm

theorem decision_mem {t : ℤ} {readings : List ℤ} {d : Decision} (hd : d ∈ decisions t readings) :
    d.currentTime ∈ readings ∧
      d.refused = (tooManyRequests d.lastRequestTime d.currentTime).1 := by
  obtain ⟨front, back, hsplit⟩ := List.append_of_mem hd
  exact (lastRequestTime_eq hsplit).2

/-- `lastRequestTime` has its first value, or is a reading. -/
theorem lastRequestTime_cases {readings : List ℤ} {front back : List Decision} {d : Decision}
    (h : decisions minInt64 readings = front ++ d :: back) :
    (admitted front = [] ∧ d.lastRequestTime = minInt64) ∨
      ((admitted front).getLast? = some d.lastRequestTime ∧ d.lastRequestTime ∈ readings) := by
  obtain ⟨hlast, _⟩ := lastRequestTime_eq h
  rw [List.getLastD_eq_getLast?] at hlast
  cases hadmitted : (admitted front).getLast? with
  | none =>
    rw [hadmitted] at hlast
    exact Or.inl ⟨List.getLast?_eq_none_iff.mp hadmitted, hlast⟩
  | some last =>
    rw [hadmitted, Option.getD_some] at hlast
    refine Or.inr ⟨by rw [hlast], ?_⟩
    obtain ⟨d', hd', hcurrent⟩ := List.mem_map.mp (List.mem_of_getLast? hadmitted)
    have hmem : d' ∈ decisions minInt64 readings := by
      rw [h]
      exact List.mem_append_left _ (List.mem_of_mem_filter hd')
    rw [hlast, ← hcurrent]
    exact (decision_mem hmem).1

/-- Behind an admitted request the next one comes more than the time span later. -/
theorem spaced_later {t : ℤ} {readings : List ℤ} (ht : InRange t)
    (hreadings : ∀ u ∈ readings, InRange u) :
    (t :: admitted (decisions t readings)).IsChain fun t u => tooManyRequestTimeSpanInNs < u - t := by
  induction readings generalizing t with
  | nil => exact .singleton t
  | cons u readings ih =>
    rw [List.forall_mem_cons] at hreadings
    rw [decisions, admitted_cons, tooManyRequests_later ht hreadings.1]
    by_cases hspan : u - t ≤ tooManyRequestTimeSpanInNs
    · rw [if_pos hspan]
      exact ih ht hreadings.2
    · rw [if_neg hspan]
      exact .cons_cons (not_le.mp hspan) (ih hreadings.1 hreadings.2)

theorem spaced {readings : List ℤ} (hreadings : ∀ u ∈ readings, InRange u) :
    Spaced (decisions minInt64 readings) := by
  cases readings with
  | nil => exact .nil
  | cons u readings =>
    rw [List.forall_mem_cons] at hreadings
    rw [Spaced, decisions, tooManyRequests_first]
    exact spaced_later hreadings.1 hreadings.2

theorem noneWraps {readings : List ℤ} (hreadings : ∀ u ∈ readings, InRange u) :
    NoneWraps (decisions minInt64 readings) := by
  intro d hd hlast
  obtain ⟨front, back, hsplit⟩ := List.append_of_mem hd
  rcases lastRequestTime_cases hsplit with ⟨_, hmin⟩ | ⟨_, hmem⟩
  · rw [hmin] at hlast
    exact absurd hlast (lt_irrefl _)
  · exact wrapInt64_sub (hreadings _ hmem) (hreadings _ (decision_mem hd).1)

/-- **Only bursts are refused** exactly when the clock is never behind the last admitted request. -/
theorem onlyBursts_iff {readings : List ℤ} (hreadings : ∀ u ∈ readings, InRange u) :
    OnlyBursts (decisions minInt64 readings) ↔ NotSetBack (decisions minInt64 readings) := by
  constructor
  · intro h d hd
    obtain ⟨front, back, hsplit⟩ := List.append_of_mem hd
    obtain ⟨hcurrent, hrefused⟩ := decision_mem hd
    have hcurrent := hreadings _ hcurrent
    rcases lastRequestTime_cases hsplit with ⟨_, hmin⟩ | ⟨hlast, hmem⟩
    · rw [hmin]
      exact (minInt64_lt hcurrent).le
    · rw [tooManyRequests_later (hreadings _ hmem) hcurrent] at hrefused
      by_cases hspan : d.currentTime - d.lastRequestTime ≤ tooManyRequestTimeSpanInNs
      · rw [if_pos hspan] at hrefused
        obtain ⟨last, hlast', hle, _⟩ := h front d back hsplit hrefused
        rw [hlast, Option.some.injEq] at hlast'
        rw [hlast']
        exact hle
      · rw [tooManyRequestTimeSpanInNs] at hspan
        omega
  · intro h front d back hsplit hd
    have hmem : d ∈ decisions minInt64 readings := by
      rw [hsplit]
      exact List.mem_append_right _ List.mem_cons_self
    obtain ⟨hcurrent, hrefused⟩ := decision_mem hmem
    rcases lastRequestTime_cases hsplit with ⟨_, hmin⟩ | ⟨hlast, hlastMem⟩
    · rw [hmin, tooManyRequests_first, hd] at hrefused
      exact Bool.noConfusion hrefused
    · refine ⟨_, hlast, h d hmem, ?_⟩
      rw [tooManyRequests_later (hreadings _ hlastMem) (hreadings _ hcurrent), hd] at hrefused
      by_contra hlate
      rw [if_neg (by omega)] at hrefused
      exact Bool.noConfusion hrefused

/-- **What the rate limiter guarantees** for every sequence of readings. -/
theorem limiter_refuses (readings : List ℤ) (hreadings : ∀ u ∈ readings, InRange u) :
    Spaced (decisions minInt64 readings) ∧ NoneWraps (decisions minInt64 readings) ∧
      (OnlyBursts (decisions minInt64 readings) ↔ NotSetBack (decisions minInt64 readings)) :=
  ⟨spaced hreadings, noneWraps hreadings, onlyBursts_iff hreadings⟩

theorem limiter_refuses_threeReadings :
    OnlyBursts (decisions minInt64 [0, 500, 2000]) ∧
      (decisions minInt64 [0, 500, 2000]).map Decision.refused = [false, true, false] := by
  refine ⟨(limiter_refuses [0, 500, 2000] (by simp [InRange])).2.2.mpr ?_, by decide⟩
  intro d hd
  fin_cases hd <;> decide

/-- The clock is set back by a second: a request that comes alone is refused. -/
theorem clockSetBack_refuses :
    (∀ u ∈ [1000000000, 0], InRange u) ∧ ¬ OnlyBursts (decisions minInt64 [1000000000, 0]) := by
  refine ⟨by simp [InRange], fun h => ?_⟩
  obtain ⟨last, hlast, hle, _⟩ := h [⟨minInt64, 1000000000, false⟩] ⟨1000000000, 0, true⟩ []
    (by decide) rfl
  obtain rfl : 1000000000 = last := Option.some.inj hlast
  exact absurd hle (by decide)

/-- A clock that never goes back is never behind `lastRequestTime`. -/
theorem notSetBack_of_monotone {readings : List ℤ} (hreadings : ∀ u ∈ readings, InRange u)
    (hclock : readings.Pairwise (· ≤ ·)) : NotSetBack (decisions minInt64 readings) := by
  intro d hd
  obtain ⟨front, back, hsplit⟩ := List.append_of_mem hd
  rcases lastRequestTime_cases hsplit with ⟨_, hmin⟩ | ⟨hlast, _⟩
  · rw [hmin]
    exact (minInt64_lt (hreadings _ (decision_mem hd).1)).le
  · obtain ⟨d', hd', hcurrent⟩ := List.mem_map.mp (List.mem_of_getLast? hlast)
    rw [← map_currentTime minInt64 readings, hsplit, List.map_append, List.pairwise_append] at hclock
    rw [← hcurrent]
    exact hclock.2.2 _ (List.mem_map_of_mem (List.mem_of_mem_filter hd')) _ List.mem_cons_self

/-! ### The limiter in any interleaving -/

/-- The answer of the limiter. -/
def limiterAnswer : (c : Call) → c.Result → Option Bool
  | .tooManyRequests, refused => some refused
  | _, _ => none

/-- The call of the limiter that an event is. -/
def limiterCall (env : Env) (e : CallEvent) : Option Decision :=
  (limiterAnswer e.op e.result).map fun refused =>
    ⟨e.before.lastRequestTime, wrapInt64 (env.clock e.before.calls), refused⟩

/-- `lastRequestTime` after the calls. -/
def lastRequestTimeAfter : ℤ → List ℤ → ℤ := List.foldl fun t u => (tooManyRequests t u).2

theorem decisions_snoc (t : ℤ) (readings : List ℤ) (u : ℤ) :
    decisions t (readings ++ [u]) = decisions t readings ++
      [⟨lastRequestTimeAfter t readings, u,
        (tooManyRequests (lastRequestTimeAfter t readings) u).1⟩] := by
  induction readings generalizing t with
  | nil => rfl
  | cons u' readings ih =>
    rw [List.cons_append, decisions, ih, decisions, List.cons_append]
    rfl

theorem handle_lastRequestTime {env : Env} {t : ℕ} {c : Call} {w w' : World} {r : c.Result}
    (h : handle env t c w = some (r, w')) (hc : c ≠ .tooManyRequests) :
    w'.lastRequestTime = w.lastRequestTime := by
  cases c with
  | tooManyRequests => exact absurd rfl hc
  | generateSynchronizedToken =>
    rw [handle, Option.map_eq_some_iff] at h
    obtain ⟨p, _, hp⟩ := h
    rw [Prod.mk.injEq] at hp
    rw [← hp.2]
    rfl
  | index notes i =>
    rw [handle, Option.map_eq_some_iff] at h
    obtain ⟨n, _, hn⟩ := h
    rw [Prod.mk.injEq] at hn
    rw [← hn.2]
    rfl
  | executeTemplate page =>
    rw [handle] at h
    split at h <;> rw [Option.some.injEq, Prod.mk.injEq] at h <;> rw [← h.2] <;> rfl
  | hang => exact r.elim
  | _ =>
    rw [handle, Option.some.injEq, Prod.mk.injEq] at h
    rw [← h.2]
    rfl

/-- **The calls of the limiter** in an interleaving are those for the readings it took. -/
theorem limiterCalls {env : Env} {c₀ c : Pool Call Call.Result Response World} {ts : List ℕ}
    {es : Trace} (hrun : c₀.exec (handle env) ts = some (es, c)) :
    ∃ readings, (∀ u ∈ readings, ∃ k, u = wrapInt64 (env.clock k)) ∧
      es.filterMap (limiterCall env) = decisions c₀.world.lastRequestTime readings ∧
      c.world.lastRequestTime = lastRequestTimeAfter c₀.world.lastRequestTime readings := by
  refine Pool.exec_induction (handle env) (P := fun _ es c => ∃ readings,
    (∀ u ∈ readings, ∃ k, u = wrapInt64 (env.clock k)) ∧
      es.filterMap (limiterCall env) = decisions c₀.world.lastRequestTime readings ∧
      c.world.lastRequestTime = lastRequestTimeAfter c₀.world.lastRequestTime readings) ?_ ?_ hrun
  · exact ⟨[], fun u hu => absurd hu List.not_mem_nil, rfl, rfl⟩
  · intro ts es c t e c' _ ⟨readings, hclock, hcalls, hlast⟩ hstep
    obtain ⟨op, k, r, w, _, hop, rfl, rfl⟩ := (Pool.step_eq_some_iff (handle env) c c' t e).mp hstep
    rw [List.filterMap_append, hcalls]
    by_cases hc : op = .tooManyRequests
    · subst hc
      rw [handle, Option.some.injEq, Prod.mk.injEq] at hop
      refine ⟨readings ++ [wrapInt64 (env.clock c.world.calls)], ?_, ?_, ?_⟩
      · intro u hu
        rcases List.mem_append.mp hu with hold | hnew
        · exact hclock u hold
        · exact ⟨_, List.mem_singleton.mp hnew⟩
      · rw [decisions_snoc, ← hlast, ← hop.1]
        rfl
      · rw [lastRequestTimeAfter, List.foldl_append, ← lastRequestTimeAfter, ← hlast, ← hop.2]
        rfl
    · refine ⟨readings, hclock, ?_, (handle_lastRequestTime hop hc).trans hlast⟩
      have hnone : limiterAnswer op r = none := by
        cases op <;> first | rfl | exact absurd rfl hc
      rw [List.filterMap_cons, limiterCall, hnone]
      exact List.append_nil _

theorem wrapInt64_inRange {u : ℤ} (hu : InRange u) : InRange (wrapInt64 u) := by
  have hzero : InRange 0 := ⟨le_rfl, by decide⟩
  have hsub := wrapInt64_sub hzero hu
  rw [sub_zero] at hsub
  rw [hsub]
  exact hu

/-- **Interleaved requests** that are let through are more than the time span apart, and they are
refused in bursts only as long as the clock is not behind. -/
theorem pool_limited {env : Env} (hclock : ∀ k, InRange (env.clock k)) {notes : NotesTable}
    {programs : List (Prog Response)} {c : Pool Call Call.Result Response World} {ts : List ℕ}
    {es : Trace} (hrun : Pool.exec (handle env) ⟨World.initial notes, programs⟩ ts = some (es, c)) :
    Spaced (es.filterMap (limiterCall env)) ∧ NoneWraps (es.filterMap (limiterCall env)) ∧
      (OnlyBursts (es.filterMap (limiterCall env)) ↔
        NotSetBack (es.filterMap (limiterCall env))) := by
  obtain ⟨readings, htaken, hcalls, _⟩ := limiterCalls hrun
  have hreadings : ∀ u ∈ readings, InRange u := by
    intro u hu
    obtain ⟨k, hk⟩ := htaken u hu
    rw [hk]
    exact wrapInt64_inRange (hclock k)
  rw [hcalls]
  exact ⟨spaced hreadings, noneWraps hreadings, onlyBursts_iff hreadings⟩

end ShareNotes.RateLimiter
