import ShareNotes.Effects
import ShareNotes.HandlerRuns

/-!
# What a confirmation acts on

A confirmation page is shown for a note and submits the number of that note. The
number is the key of the note's row, and the key of the last row is given out
again once the row is removed. `record` runs requests one at a time and keeps,
for every number, which request created the note now stored under it.

A confirmation acts on the note that its page was shown for in every run in which
no `NewNote` request between the page and its submission was given that number
again.
-/

namespace ShareNotes.ConfirmedNote

open ShareNotes.Lib.Decimal ShareNotes.Lib.KeyedRows ShareNotes.Lib.Interaction
open ShareNotes.Token ShareNotes.NoteRecord ShareNotes.Manager ShareNotes.Calls
open ShareNotes.Handlers ShareNotes.Routing ShareNotes.Runs ShareNotes.Effects
open ShareNotes.HandlerRuns

/-! ### Runs that remember who created a note -/

/-- The request that created the note under each number; `none` without a note,
and for a note that was there from the start. -/
abbrev Creators := ℤ → Option ℕ

/-- A row that appears during request `i` was created by it. -/
def createdBy (i : ℕ) (before after : NotesTable) (creator : Creators) : Creators := fun k =>
  match after.lookup k, before.lookup k with
  | none, _ => none
  | some _, none => some i
  | some _, some _ => creator k

/-- One request of a run: its answer, and the state and the creators before and after it. -/
structure Moment where
  request : Request
  answer : Response
  before : World
  creator : Creators
  after : World

/-- Handle requests one at a time, from request number `i` on. -/
def record (env : Env) : ℕ → List Request → World → Creators → Option (List Moment)
  | _, [], _, _ => some []
  | i, request :: requests, w, creator =>
    (run (handle env) i (serveHTTP env request) w).bind fun q =>
      (record env (i + 1) requests q.2.2
          (createdBy i w.notes q.2.2.notes creator)).map fun ms =>
        ⟨request, q.1, w, creator, q.2.2⟩ :: ms

theorem record_cons_iff (env : Env) (i : ℕ) (request : Request) (requests : List Request)
    (w : World) (creator : Creators) (ms : List Moment) :
    record env i (request :: requests) w creator = some ms ↔
      ∃ a es w' ms', run (handle env) i (serveHTTP env request) w = some (a, es, w') ∧
        record env (i + 1) requests w' (createdBy i w.notes w'.notes creator) = some ms' ∧
        ms = ⟨request, a, w, creator, w'⟩ :: ms' := by
  simp only [record, Option.bind_eq_some_iff, Option.map_eq_some_iff, Prod.exists]
  constructor
  · intro ⟨a, es, w', hrun, ms', hrest, hms⟩
    exact ⟨a, es, w', ms', hrun, hrest, hms.symm⟩
  · intro ⟨a, es, w', ms', hrun, hrest, hms⟩
    exact ⟨a, es, w', hrun, ms', hrest, hms.symm⟩

/-! ### Steps of a recorded run -/

theorem record_first {env : Env} {i : ℕ} {requests : List Request} {w : World}
    {creator : Creators} {ms : List Moment} (hrec : record env i requests w creator = some ms)
    {p : Moment} (hp : ms[0]? = some p) : p.before = w ∧ p.creator = creator := by
  cases requests with
  | nil =>
    rw [record, Option.some.injEq] at hrec
    rw [← hrec] at hp
    exact absurd hp (by simp)
  | cons request requests =>
    obtain ⟨a, es, w', ms', _, _, rfl⟩ :=
      (record_cons_iff env i request requests w creator ms).mp hrec
    rw [List.getElem?_cons_zero, Option.some.injEq] at hp
    rw [← hp]
    exact ⟨rfl, rfl⟩

theorem record_run {env : Env} {i : ℕ} {requests : List Request} {w : World}
    {creator : Creators} {ms : List Moment} (hrec : record env i requests w creator = some ms) :
    ∀ p ∈ ms, ∃ t es, run (handle env) t (serveHTTP env p.request) p.before =
      some (p.answer, es, p.after) := by
  induction requests generalizing i w creator ms with
  | nil =>
    rw [record, Option.some.injEq] at hrec
    rw [← hrec]
    intro p hp
    exact absurd hp List.not_mem_nil
  | cons request requests ih =>
    obtain ⟨a, es, w', ms', hrun, hrest, rfl⟩ :=
      (record_cons_iff env i request requests w creator ms).mp hrec
    intro p hp
    rcases List.mem_cons.mp hp with hp | hp
    · rw [hp]
      exact ⟨i, es, hrun⟩
    · exact ih hrest p hp

/-- Each request starts where the one before it ended. -/
theorem record_next {env : Env} {i : ℕ} {requests : List Request} {w : World}
    {creator : Creators} {ms : List Moment} (hrec : record env i requests w creator = some ms)
    {m : ℕ} {p q : Moment} (hp : ms[m]? = some p) (hq : ms[m + 1]? = some q) :
    q.before = p.after ∧
      q.creator = createdBy (i + m) p.before.notes p.after.notes p.creator := by
  induction requests generalizing i w creator ms m with
  | nil =>
    rw [record, Option.some.injEq] at hrec
    rw [← hrec] at hp
    exact absurd hp (by simp)
  | cons request requests ih =>
    obtain ⟨a, es, w', ms', _, hrest, rfl⟩ :=
      (record_cons_iff env i request requests w creator ms).mp hrec
    rw [List.getElem?_cons_succ] at hq
    cases m with
    | zero =>
      rw [List.getElem?_cons_zero, Option.some.injEq] at hp
      rw [← hp]
      exact record_first hrest hq
    | succ m =>
      rw [List.getElem?_cons_succ] at hp
      have hrec' := ih hrest hp hq
      rw [show i + 1 + m = i + (m + 1) from by omega] at hrec'
      exact hrec'

/-- Each request changes the notes as its route says. -/
theorem record_tableStep {env : Env} {i : ℕ} {requests : List Request} {w : World}
    {creator : Creators} {ms : List Moment} (hrec : record env i requests w creator = some ms)
    {p : Moment} (hp : p ∈ ms) :
    TableStep (routed p.request.path) p.before.notes p.after.notes := by
  obtain ⟨t, es, hrun⟩ := record_run hrec p hp
  exact serveHTTP_tableStep hrun

/-! ### Pages and their submission -/

/-- The request was answered with a `DeleteNote` or `EditNote` page for the note
`noteID`, which was created by request `c`. -/
structure ShowsNote (p : Moment) (noteID : ℤ) (c : ℕ) : Prop where
  served : ∃ template note token, p.answer = .page ⟨template, .confirmNoteData note token⟩ ∧
    template ∈ [ascii "DeleteNote.html", ascii "EditNote.html"] ∧ note.noteID = noteID
  creator : p.creator noteID = some c

/-- The request submits the form of such a page. -/
def Submits (s : Moment) (noteID : ℤ) : Prop :=
  routed s.request.path = .deleteNoteHandler noteID ∨
    routed s.request.path = .saveNoteHandler noteID

/-- Only a note created by request `c` is removed or changed, and none is added. -/
def ActsOnlyOn (c : ℕ) (s : Moment) : Prop :=
  ∀ k, s.after.notes.lookup k ≠ s.before.notes.lookup k →
    s.before.notes.lookup k ≠ none ∧ s.creator k = some c

/-- A `NewNote` request that is let through, with an accepted token and a write
that is committed, in a state in which the number is the next one. -/
structure GivesOut (env : Env) (p : Moment) (noteID : ℤ) : Prop where
  route : routed p.request.path = .newNoteHandler
  next : p.before.notes.nextKey = noteID
  letThrough : limiterRefuses env p.before = false
  token : ∃ token, submittedToken p.request.form = .ok token ∧
    p.before.sidManager.synchronizedTokenIsValid token = true
  commits : Commits (env.txOutcome (p.before.calls + 4))

/-- A `NewNote` request that changes the notes was let through, accepted and committed. -/
theorem givesOut_of_notes_ne {env : Env} {t : ℕ} {request : Request} {w w' : World}
    {creator : Creators} {a : Response} {es : Trace}
    (hrun : run (handle env) t (serveHTTP env request) w = some (a, es, w'))
    (hroute : routed request.path = .newNoteHandler) (hne : w'.notes ≠ w.notes) :
    GivesOut env ⟨request, a, w, creator, w'⟩ w.notes.nextKey := by
  rcases serveHTTP_cases env request with ⟨hnot, _⟩ | ⟨message, hserve⟩
  · rw [hroute] at hnot
    exact absurd hnot (by simp)
  · rw [hserve, hroute] at hrun
    obtain ⟨e, es', _, rfl, htime, ⟨_, _, _, rfl⟩ | ⟨hlimit, hrun₁⟩⟩ := run_limited hrun
    · exact absurd htime.notes hne
    · rcases run_checkToken hrun₁ with ⟨_, _, _, hsame⟩ |
        ⟨token, _, es₂, htoken, hvalid, _, _, _, hrun₂⟩
      · exact absurd (hsame.trans htime.notes) hne
      · obtain ⟨_, err, hadd, _⟩ := run_addNew hrun₂
        rw [handle, Option.some.injEq, Prod.mk.injEq] at hadd
        have hcalls : e.after.tick.tick.tick.calls = w.calls + 4 := by
          show e.after.calls + 1 + 1 + 1 = w.calls + 4
          rw [htime.calls]
        rw [htime.sidManager] at hvalid
        refine ⟨hroute, rfl, hlimit, ⟨token, htoken, hvalid⟩, ?_⟩
        rw [← hcalls]
        apply commits_of_notes_ne
        rw [← hadd.2, ← htime.notes] at hne
        exact hne

/-- The note under the number was created by `c`, if there is one. -/
def Holds (creator : Creators) (notes : NotesTable) (noteID : ℤ) (c : ℕ) : Prop :=
  notes.lookup noteID ≠ none → creator noteID = some c

/-- A row that was there before keeps its creator. -/
theorem holds_createdBy {i : ℕ} {before after : NotesTable} {creator : Creators} {noteID : ℤ}
    {c : ℕ} (h : Holds creator before noteID c)
    (hkept : before.lookup noteID = none → after.lookup noteID = none) :
    Holds (createdBy i before after creator) after noteID c := by
  intro hafter
  cases hbefore : before.lookup noteID with
  | none => exact absurd (hkept hbefore) hafter
  | some e =>
    have hcreator := h (by rw [hbefore]; simp)
    cases hlookup : after.lookup noteID with
    | none => exact absurd hlookup hafter
    | some e' =>
      rw [createdBy, hlookup, hbefore]
      exact hcreator

/-- **One request keeps the creator** unless it gives the number out again. -/
theorem holds_step {i : ℕ} {route : Route} {before after : NotesTable} {creator : Creators}
    {noteID : ℤ} {c : ℕ} (hstep : TableStep route before after)
    (hnew : route = .newNoteHandler → after ≠ before → before.nextKey ≠ noteID)
    (h : Holds creator before noteID c) :
    Holds (createdBy i before after creator) after noteID c := by
  apply holds_createdBy h
  intro hnone
  cases hstep with
  | same => exact hnone
  | insert notes e =>
    have hne : before.insert e ≠ before := by
      intro h
      have hlookup := congrArg (fun notes : NotesTable => notes.lookup before.nextKey) h
      rw [RowTable.lookup_insert, if_pos rfl, RowTable.lookup_nextKey] at hlookup
      exact absurd hlookup (by simp)
    rw [RowTable.lookup_insert, if_neg (fun hk => hnew rfl hne hk.symm)]
    exact hnone
  | modify notes k f =>
    rw [RowTable.lookup_modify, hnone]
    split <;> rfl
  | erase notes k =>
    rw [RowTable.lookup_erase, hnone]
    split <;> rfl

/-- The creator is kept up to the submission. -/
theorem holds_until {env : Env} {n₀ : ℕ} {requests : List Request} {w : World}
    {creator : Creators} {ms : List Moment} (hrec : record env n₀ requests w creator = some ms)
    {i : ℕ} {noteID : ℤ} {c : ℕ} {p : Moment} (hp : ms[i]? = some p)
    (hshown : p.creator noteID = some c) (d : ℕ) {s : Moment} (hs : ms[i + d]? = some s)
    (hnone : ∀ m q, i ≤ m → m < i + d → ms[m]? = some q → ¬GivesOut env q noteID) :
    Holds s.creator s.before.notes noteID c := by
  induction d generalizing s with
  | zero =>
    rw [Nat.add_zero, hp, Option.some.injEq] at hs
    rw [← hs]
    exact fun _ => hshown
  | succ d ih =>
    rw [← Nat.add_assoc] at hs
    have hlt : i + d < ms.length := by
      have := (List.getElem?_eq_some_iff.mp hs).1
      omega
    have hq := List.getElem?_eq_getElem hlt
    have hbefore := ih hq fun m q hm hlt' => hnone m q hm (by omega)
    obtain ⟨hstart, hcreator⟩ := record_next hrec hq hs
    rw [hstart, hcreator]
    have hmem := List.mem_of_getElem? hq
    obtain ⟨t, es, hrun⟩ := record_run hrec _ hmem
    refine holds_step (record_tableStep hrec hmem) ?_ hbefore
    intro hroute hne hkey
    refine hnone (i + d) _ (by omega) (by omega) hq ?_
    rw [← hkey]
    exact givesOut_of_notes_ne hrun hroute hne

/-- A submission touches no other number. -/
theorem eq_of_submits {s : Moment} {noteID : ℤ} (hsubmit : Submits s noteID)
    (hstep : TableStep (routed s.request.path) s.before.notes s.after.notes) {k : ℤ}
    (hk : s.after.notes.lookup k ≠ s.before.notes.lookup k) :
    k = noteID ∧ s.before.notes.lookup k ≠ none := by
  generalize s.before.notes = before at hstep hk
  generalize s.after.notes = after at hstep hk
  have hroutes : ∀ route, routed s.request.path = route →
      route = .deleteNoteHandler noteID ∨ route = .saveNoteHandler noteID := by
    intro route hroute
    rw [← hroute]
    exact hsubmit
  generalize hroute : routed s.request.path = route at hstep
  have hkind := hroutes route hroute
  cases hstep with
  | same => exact absurd rfl hk
  | insert notes e => rcases hkind with h | h <;> exact absurd h (by simp)
  | modify notes j f =>
    have hj : j = noteID := by simpa using hkind
    rw [RowTable.lookup_modify] at hk
    by_cases hkj : k = j
    · refine ⟨hkj.trans hj, fun hnone => ?_⟩
      rw [if_pos hkj, hnone] at hk
      exact hk rfl
    · rw [if_neg hkj] at hk
      exact absurd rfl hk
  | erase notes j =>
    have hj : j = noteID := by simpa using hkind
    rw [RowTable.lookup_erase] at hk
    by_cases hkj : k = j
    · refine ⟨hkj.trans hj, fun hnone => ?_⟩
      rw [if_pos hkj, hnone] at hk
      exact hk rfl
    · rw [if_neg hkj] at hk
      exact absurd rfl hk

/-- **A confirmation acts on the note it was shown for** in every run in which the
number of that note is not given out again before the confirmation. -/
theorem confirmation_acts_on_shown {env : Env} {notes : NotesTable} {requests : List Request}
    {ms : List Moment}
    (hrec : record env 0 requests (World.initial notes) (fun _ => none) = some ms)
    {i j : ℕ} {p s : Moment} {noteID : ℤ} {c : ℕ} (hij : i < j) (hp : ms[i]? = some p)
    (hs : ms[j]? = some s) (hshown : ShowsNote p noteID c) (hsubmit : Submits s noteID)
    (hnone : ∀ m q, i ≤ m → m < j → ms[m]? = some q → ¬GivesOut env q noteID) :
    ActsOnlyOn c s := by
  have hd : i + (j - i) = j := by omega
  have hholds := holds_until hrec hp hshown.creator (j - i) (by rw [hd]; exact hs)
    (by rw [hd]; exact hnone)
  intro k hk
  obtain ⟨hkey, hrow⟩ := eq_of_submits hsubmit
    (record_tableStep hrec (List.mem_of_getElem? hs)) hk
  rw [hkey] at hrow ⊢
  exact ⟨hrow, hholds hrow⟩

/-- The form of a page whose token has the number `id`. -/
def quietForm (id : Bytes) : Form := (ascii "title", ascii "a") :: tokenForm id quietString

/-- A note is created and its page is shown; then another client creates a note,
deletes it and creates one again, and the form of the page is submitted. -/
def shownAndConfirmed : List Request :=
  [⟨ascii "/AddNote/", []⟩, ⟨ascii "/NewNote/", quietForm (ascii "0")⟩,
    ⟨ascii "/DeleteNote/1", []⟩, ⟨ascii "/NewNote/", quietForm (ascii "0")⟩,
    ⟨ascii "/ConfirmDeleteNote/2", quietForm (ascii "0")⟩,
    ⟨ascii "/NewNote/", quietForm (ascii "0")⟩,
    ⟨ascii "/ConfirmDeleteNote/1", quietForm (ascii "1")⟩]

/-- The answer that shows the note 1 of a quiet run, with token number 1. -/
def quietPage : Response :=
  .page ⟨ascii "DeleteNote.html", .confirmNoteData
    ⟨1, ascii "a", [], 1500000005000000000, 1500000006000000000⟩ ⟨1, quietString⟩⟩

/-- The other client's notes get the number 2, twice. -/
theorem confirmation_acts_on_shown_shownAndConfirmed :
    ∃ ms p s, record quiet 0 shownAndConfirmed (World.initial RowTable.empty) (fun _ => none) =
        some ms ∧ ms[2]? = some p ∧ ms[6]? = some s ∧ ShowsNote p 1 1 ∧ Submits s 1 ∧
      s.creator 2 = some 5 ∧ s.before.notes.rows.map Prod.fst = [1, 2] ∧
      s.after.notes.rows.map Prod.fst = [2] ∧
      ActsOnlyOn 1 s := by
  have hrec : (record quiet 0 shownAndConfirmed (World.initial RowTable.empty)
      (fun _ => none)).map (fun ms => ((ms[2]?).map fun p => (p.answer, p.creator 1,
        routed p.request.path))) =
      some (some (quietPage, some 1, .preparePostHandler (ascii "DeleteNote") 1)) := by
    decide
  have hbetween : (record quiet 0 shownAndConfirmed (World.initial RowTable.empty)
      (fun _ => none)).map (fun ms => (ms.map fun q =>
        decide (routed q.request.path = .newNoteHandler ∧ q.before.notes.nextKey = 1))) =
      some [false, true, false, false, false, false, false] := by
    decide
  have hlast : (record quiet 0 shownAndConfirmed (World.initial RowTable.empty)
      (fun _ => none)).map (fun ms => ((ms[6]?).map fun s => (routed s.request.path, s.creator 2,
        s.before.notes.rows.map Prod.fst, s.after.notes.rows.map Prod.fst))) =
      some (some (.deleteNoteHandler 1, some 5, [1, 2], [2])) := by
    decide
  obtain ⟨ms, hms, hshown⟩ := Option.map_eq_some_iff.mp hrec
  obtain ⟨p, hp, hshown⟩ := Option.map_eq_some_iff.mp hshown
  rw [hms, Option.map_some, Option.some.injEq] at hbetween hlast
  obtain ⟨s, hs, hsubmit⟩ := Option.map_eq_some_iff.mp hlast
  rw [Prod.mk.injEq, Prod.mk.injEq] at hshown
  rw [Prod.mk.injEq, Prod.mk.injEq, Prod.mk.injEq] at hsubmit
  obtain ⟨hroute, hcreator, hbefore, hafter⟩ := hsubmit
  have hshows : ShowsNote p 1 1 := ⟨⟨_, _, _, hshown.1, by decide, rfl⟩, hshown.2.1⟩
  have hsubmits : Submits s 1 := Or.inl hroute
  refine ⟨ms, p, s, hms, hp, hs, hshows, hsubmits, hcreator, hbefore, hafter, ?_⟩
  refine confirmation_acts_on_shown hms (by decide) hp hs hshows hsubmits fun m q hm hlt hq h => ?_
  -- no request from the page to the submission is a `NewNote` with the next number 1
  have hnone := congrArg (fun l => l[m]?) hbetween
  simp only [List.getElem?_map, hq, Option.map_some, h.route, h.next, and_self,
    decide_true] at hnone
  interval_cases m <;> simp at hnone

/-- A note is created and its page is shown; then another client deletes the
note and creates one, and the form of the page is submitted. -/
def staleConfirmation : List Request :=
  [⟨ascii "/AddNote/", []⟩, ⟨ascii "/NewNote/", quietForm (ascii "0")⟩,
    ⟨ascii "/DeleteNote/1", []⟩, ⟨ascii "/ConfirmDeleteNote/1", quietForm (ascii "0")⟩,
    ⟨ascii "/NewNote/", quietForm (ascii "0")⟩,
    ⟨ascii "/ConfirmDeleteNote/1", quietForm (ascii "1")⟩]

/-- The last request removes the note that request 4 created, although its page
was shown for the note that request 1 created. -/
theorem staleConfirmation_removes_other :
    ∃ ms p s, record quiet 0 staleConfirmation (World.initial RowTable.empty) (fun _ => none) =
        some ms ∧ ms[2]? = some p ∧ ms[5]? = some s ∧ ShowsNote p 1 1 ∧ Submits s 1 ∧
      s.creator 1 = some 4 ∧ s.before.notes.lookup 1 ≠ none ∧ s.after.notes.lookup 1 = none ∧
      ¬ActsOnlyOn 1 s := by
  have hrec : (record quiet 0 staleConfirmation (World.initial RowTable.empty)
      (fun _ => none)).map (fun ms => ((ms[2]?).map fun p => (p.answer, p.creator 1))) =
      some (some (quietPage, some 1)) := by
    decide
  have hlast : (record quiet 0 staleConfirmation (World.initial RowTable.empty)
      (fun _ => none)).map (fun ms => ((ms[5]?).map fun s => (routed s.request.path, s.creator 1,
        (s.before.notes.lookup 1).isSome, (s.after.notes.lookup 1).isSome))) =
      some (some (.deleteNoteHandler 1, some 4, true, false)) := by
    decide
  obtain ⟨ms, hms, hshown⟩ := Option.map_eq_some_iff.mp hrec
  obtain ⟨p, hp, hshown⟩ := Option.map_eq_some_iff.mp hshown
  rw [hms, Option.map_some, Option.some.injEq] at hlast
  obtain ⟨s, hs, hsubmit⟩ := Option.map_eq_some_iff.mp hlast
  rw [Prod.mk.injEq] at hshown
  rw [Prod.mk.injEq, Prod.mk.injEq, Prod.mk.injEq] at hsubmit
  obtain ⟨hroute, hcreator, hbefore, hafter⟩ := hsubmit
  have hshows : ShowsNote p 1 1 := ⟨⟨_, _, _, hshown.1, by decide, rfl⟩, hshown.2⟩
  have hrow : s.before.notes.lookup 1 ≠ none := by
    intro h
    rw [h] at hbefore
    exact absurd hbefore (by decide)
  have hgone : s.after.notes.lookup 1 = none :=
    Option.not_isSome_iff_eq_none.mp (by rw [hafter]; simp)
  refine ⟨ms, p, s, hms, hp, hs, hshows, Or.inl hroute, hcreator, hrow, hgone, fun h => ?_⟩
  have hacts := (h 1 (by rw [hgone]; exact hrow.symm)).2
  rw [hcreator] at hacts
  exact absurd hacts (by decide)

end ShareNotes.ConfirmedNote
