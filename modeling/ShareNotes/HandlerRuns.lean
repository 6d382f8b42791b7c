import ShareNotes.TokenAuthenticity

/-!
# Running the handlers that change something

What a run of each of the three handlers does, call by call: the rate limiter,
the token check, and the body after an accepted check. The clock readings and the
outcome of the write are those of the calls that the handler makes, counted from
the number of calls made before.
-/

namespace ShareNotes.HandlerRuns

open ShareNotes.Lib.Decimal ShareNotes.Lib.KeyedRows ShareNotes.Lib.Interaction
open ShareNotes.Token ShareNotes.NoteRecord ShareNotes.Linkify ShareNotes.Manager
open ShareNotes.Calls ShareNotes.Handlers ShareNotes.Routing ShareNotes.Runs
open ShareNotes.TokenAuthenticity
open Program

/-! ### Facts about a trace -/

/-- The clock reading that a call returned. -/
def readBy : (c : Call) → c.Result → Option Time
  | .now, now => some now
  | _, _ => none

/-- The clock readings of a trace, in seconds. -/
def secondsRead (tr : Trace) : List ℤ := tr.filterMap fun e => (readBy e.op e.result).map unix

/-- A token check of the trace answered true. -/
def accepted (tr : Trace) : Bool := tr.any fun e => (checked e).any Prod.snd

theorem secondsRead_append (tr tr' : Trace) :
    secondsRead (tr ++ tr') = secondsRead tr ++ secondsRead tr' :=
  List.filterMap_append

/-- A call that reads no clock and checks no token. -/
def Silent (e : CallEvent) : Prop := readBy e.op e.result = none ∧ checked e = none

theorem Silent.secondsRead_cons {e : CallEvent} (he : Silent e) (tr : Trace) :
    secondsRead (e :: tr) = secondsRead tr := by
  rw [secondsRead, List.filterMap_cons, he.1]
  rfl

theorem Silent.accepted_cons {e : CallEvent} (he : Silent e) (tr : Trace) :
    accepted (e :: tr) = accepted tr := by
  rw [accepted, List.any_cons, he.2]
  rfl

/-- A reading, with the call that made it. -/
def nowEvent (env : Env) (t : ℕ) (w : World) : CallEvent :=
  ⟨t, .now, w, env.clock w.calls, w.tick⟩

/-! ### The limiter and the token check -/

variable {env : Env} {t : ℕ} {w w' : World} {a : Response} {es : Trace}

/-- What the rate limiter answers in a state. -/
def limiterRefuses (env : Env) (w : World) : Bool :=
  (Calls.tooManyRequests w.lastRequestTime (wrapInt64 (env.clock w.calls))).1

/-- Only the call counter and the time of the last request differ. -/
structure SameButTime (w w₁ : World) : Prop where
  dbManager : w₁.dbManager = w.dbManager
  sidManager : w₁.sidManager = w.sidManager
  calls : w₁.calls = w.calls + 1

theorem SameButTime.notes {w₁ : World} (h : SameButTime w w₁) : w₁.notes = w.notes := by
  rw [World.notes, World.notes, h.dbManager]

/-- **A run behind the rate limiter.** -/
theorem run_limited {message : Bytes} {rest : Prog Response}
    (hrun : run (handle env) t (limited message rest) w = some (a, es, w')) :
    ∃ e es', Silent e ∧ es = e :: es' ∧ SameButTime w e.after ∧
      ((limiterRefuses env w = true ∧ a = .httpError (.text message) 429 ∧ es' = [] ∧
          w' = e.after) ∨
        (limiterRefuses env w = false ∧ run (handle env) t rest e.after = some (a, es', w'))) := by
  obtain ⟨r, w₁, es', hop, hrest, rfl⟩ := (run_call_iff (handle env) t _ _ w w' a es).mp hrun
  rw [handle, Option.some.injEq, Prod.mk.injEq] at hop
  obtain ⟨hr, hw₁⟩ := hop
  refine ⟨_, es', ⟨rfl, rfl⟩, rfl, ?_, ?_⟩
  · rw [← hw₁]
    exact ⟨rfl, rfl, rfl⟩
  · change limiterRefuses env w = r at hr
    cases r with
    | true =>
      left
      exact ⟨hr, of_run_ret hrest⟩
    | false => exact Or.inr ⟨hr, hrest⟩

/-- **A run behind a token check.** -/
theorem run_checkToken {form : Form} {invalid : Bytes} {rest : Prog Response}
    (hrun : run (handle env) t (checkToken form invalid rest) w = some (a, es, w')) :
    (∃ message, a = .httpError message 500 ∧ accepted es = false ∧ w'.notes = w.notes) ∨
      ∃ token e es', submittedToken form = .ok token ∧
        w.sidManager.synchronizedTokenIsValid token = true ∧
        readBy e.op e.result = none ∧ checked e = some (token, true) ∧ es = e :: es' ∧
        run (handle env) t rest w.tick = some (a, es', w') := by
  rw [checkToken] at hrun
  cases htoken : submittedToken form with
  | error err =>
    rw [htoken] at hrun
    obtain ⟨rfl, rfl, rfl⟩ := of_run_ret hrun
    exact Or.inl ⟨_, rfl, rfl, rfl⟩
  | ok token =>
    rw [htoken] at hrun
    obtain ⟨r, w₁, es', hop, hrest, rfl⟩ := (run_call_iff (handle env) t _ _ w w' a es).mp hrun
    rw [handle, Option.some.injEq, Prod.mk.injEq] at hop
    obtain ⟨hr, hw₁⟩ := hop
    subst hw₁
    cases r with
    | true => exact Or.inr ⟨token, _, es', rfl, hr, rfl, rfl, rfl, hrest⟩
    | false =>
      obtain ⟨rfl, rfl, rfl⟩ := of_run_ret hrest
      exact Or.inl ⟨_, rfl, rfl, rfl⟩

theorem run_now {α : Type} {k : Time → Prog α} {b : α}
    (hrun : run (handle env) t (.call .now k) w = some (b, es, w')) :
    ∃ es', es = nowEvent env t w :: es' ∧
      run (handle env) t (k (env.clock w.calls)) w.tick = some (b, es', w') := by
  obtain ⟨r, w₁, es', hop, hrest, rfl⟩ := (run_call_iff (handle env) t _ _ w w' b es).mp hrun
  rw [handle, Option.some.injEq, Prod.mk.injEq] at hop
  obtain ⟨rfl, rfl⟩ := hop
  exact ⟨es', rfl, hrest⟩

theorem secondsRead_now (env : Env) (t : ℕ) (w : World) (tr : Trace) :
    secondsRead (nowEvent env t w :: tr) = unix (env.clock w.calls) :: secondsRead tr := rfl

/-- The end of a handler that wrote. -/
theorem run_afterWrite {url : Bytes} {err : Option GoError}
    (hrun : run (handle env) t (afterWrite url err) w = some (a, es, w')) :
    es = [] ∧ w' = w ∧ (a = .redirect url ↔ err = none) := by
  cases err with
  | none =>
    obtain ⟨ha, hes, hw⟩ := of_run_ret hrun
    exact ⟨hes, hw, iff_of_true ha rfl⟩
  | some err =>
    obtain ⟨ha, hes, hw⟩ := of_run_ret hrun
    refine ⟨hes, hw, iff_of_false (fun h => ?_) (by simp)⟩
    rw [ha] at h
    exact absurd h (by simp [internalServerError])

/-! ### Adding a note -/

/-- The body of `newNoteHandler` after its check. -/
def addNew (title text : Bytes) : Prog Response := do
  let n ← newNote title text
  let err ← Prog.addNote n
  afterWrite (ascii "/") err

/-- The note that is added, with two readings of the clock. -/
def addedNote (env : Env) (w : World) (title text : Bytes) : Note :=
  Note.new title text (env.clock w.calls) (env.clock (w.calls + 1))

/-- **A run that adds a note** reads the clock twice and writes once. -/
theorem run_addNew {title text : Bytes}
    (hrun : run (handle env) t (addNew title text) w = some (a, es, w')) :
    secondsRead es = [unix (env.clock w.calls), unix (env.clock (w.calls + 1))] ∧
      ∃ err, handle env t (.addNote (addedNote env w title text)) w.tick.tick = some (err, w') ∧
        (a = .redirect (ascii "/") ↔ err = none) := by
  obtain ⟨es₁, rfl, hrun₁⟩ := run_now hrun
  obtain ⟨es₂, rfl, hrun₂⟩ := run_now hrun₁
  obtain ⟨err, w₁, es₃, hop, hrest, rfl⟩ := (run_call_iff (handle env) t _ _ _ w' a es₂).mp hrun₂
  obtain ⟨rfl, rfl, hanswer⟩ := run_afterWrite hrest
  refine ⟨rfl, err, hop, hanswer⟩

/-! ### Removing a note -/

theorem run_deleteNote {noteID : ℤ}
    (hrun : run (handle env) t (Prog.deleteNote noteID >>= afterWrite (ascii "/")) w =
      some (a, es, w')) :
    ∃ err, handle env t (.deleteNote noteID) w = some (err, w') ∧
      (a = .redirect (ascii "/") ↔ err = none) := by
  obtain ⟨err, w₁, es', hop, hrest, rfl⟩ := (run_call_iff (handle env) t _ _ _ w' a es).mp hrun
  obtain ⟨rfl, rfl, hanswer⟩ := run_afterWrite hrest
  exact ⟨err, hop, hanswer⟩

/-! ### Saving a note -/

/-- The body of `saveNoteHandler` after its check. -/
def saveFound (noteID : ℤ) (foundNote : Note) (title text : Bytes) : Prog Response := do
  let titled ← saveTitle foundNote title
  let saved ← saveText text titled
  saveIfDirty noteID saved

/-- What a run of the end of a save does: nothing, or one write of the note set so far. -/
theorem run_saveIfDirty {noteID : ℤ} {saved : Bool × Note}
    (hrun : run (handle env) t (saveIfDirty noteID saved) w = some (a, es, w')) :
    secondsRead es = [] ∧
      ((saved.1 = false ∧ w' = w ∧ a = .redirect (notePath noteID)) ∨
        (saved.1 = true ∧ ∃ err, handle env t (.updateNote saved.2) w = some (err, w') ∧
          (a = .redirect (notePath noteID) ↔ err = none))) := by
  obtain ⟨dirtyBit, n⟩ := saved
  cases dirtyBit with
  | true =>
    obtain ⟨err, w₁, es', hop, hrest, rfl⟩ := (run_call_iff (handle env) t _ _ _ w' a es).mp hrun
    obtain ⟨rfl, rfl, hanswer⟩ := run_afterWrite hrest
    exact ⟨rfl, Or.inr ⟨rfl, err, hop, hanswer⟩⟩
  | false =>
    obtain ⟨rfl, rfl, rfl⟩ := of_run_ret hrun
    exact ⟨rfl, Or.inl ⟨rfl, rfl, rfl⟩⟩

/-- What a run of a save does from its second comparison on. -/
theorem run_saveText {noteID : ℤ} {text : Bytes} {titled : Bool × Note}
    (hrun : run (handle env) t (saveText text titled >>= saveIfDirty noteID) w =
      some (a, es, w')) :
    (titled.2.text = text → secondsRead es = [] ∧
      ((titled.1 = false ∧ w' = w ∧ a = .redirect (notePath noteID)) ∨
        (titled.1 = true ∧ ∃ err, handle env t (.updateNote titled.2) w = some (err, w') ∧
          (a = .redirect (notePath noteID) ↔ err = none)))) ∧
      (titled.2.text ≠ text → unix (env.clock w.calls) ∈ secondsRead es ∧
        ∃ err, handle env t (.updateNote (titled.2.setText text (env.clock w.calls))) w.tick =
            some (err, w') ∧
          (a = .redirect (notePath noteID) ↔ err = none)) := by
  obtain ⟨dirtyBit, n⟩ := titled
  constructor
  · intro htext
    have hsaveText : saveText text (dirtyBit, n) = pure (dirtyBit, n) := if_neg fun h => h htext
    rw [hsaveText, pure_eq, ret_bind] at hrun
    exact run_saveIfDirty hrun
  · intro htext
    have hsaveText : saveText text (dirtyBit, n) =
        .call .now fun now => .ret (true, n.setText text now) := if_pos htext
    rw [hsaveText, call_bind] at hrun
    obtain ⟨es₁, rfl, hrun₁⟩ := run_now hrun
    rw [ret_bind] at hrun₁
    rw [secondsRead_now]
    obtain ⟨_, ⟨hfalse, _⟩ | ⟨_, err, hop, hanswer⟩⟩ := run_saveIfDirty hrun₁
    · exact absurd hfalse.symm Bool.false_ne_true
    · exact ⟨List.mem_cons_self, err, hop, hanswer⟩

/-- **A run that saves a note** writes the submitted title and text, with a clock
reading made during the run, exactly when one of them differs from the note found. -/
theorem run_saveFound {noteID : ℤ} {foundNote : Note} {title text : Bytes}
    (hrun : run (handle env) t (saveFound noteID foundNote title text) w = some (a, es, w')) :
    (foundNote.title = title ∧ foundNote.text = text ∧ w'.notes = w.notes ∧
        a = .redirect (notePath noteID)) ∨
      (¬(foundNote.title = title ∧ foundNote.text = text) ∧
        ∃ now w₁ err, unix now ∈ secondsRead es ∧ w₁.notes = w.notes ∧
          handle env t (.updateNote { foundNote with
            title := title, text := text, changeDate := now }) w₁ = some (err, w') ∧
          (a = .redirect (notePath noteID) ↔ err = none)) := by
  by_cases htitle : foundNote.title = title
  · -- the title is as submitted: the save depends on the text alone
    have hsaveTitle : saveTitle foundNote title = pure (false, foundNote) :=
      if_neg fun h => h htitle
    rw [saveFound, hsaveTitle, pure_eq, ret_bind] at hrun
    obtain ⟨hclean, hdirty⟩ := run_saveText hrun
    by_cases htext : foundNote.text = text
    · obtain ⟨_, ⟨_, rfl, hanswer⟩ | ⟨hfalse, _⟩⟩ := hclean htext
      · exact Or.inl ⟨htitle, htext, rfl, hanswer⟩
      · exact absurd hfalse Bool.false_ne_true
    · obtain ⟨hsecond, err, hop, hanswer⟩ := hdirty htext
      refine Or.inr ⟨fun h => htext h.2, env.clock w.calls, w.tick, err, hsecond, rfl, ?_, hanswer⟩
      rw [← htitle]
      exact hop
  · have hsaveTitle : saveTitle foundNote title =
        .call .now fun now => .ret (true, foundNote.setTitle title now) := if_pos htitle
    rw [saveFound, hsaveTitle, call_bind] at hrun
    obtain ⟨es₁, rfl, hrun₁⟩ := run_now hrun
    rw [ret_bind] at hrun₁
    rw [secondsRead_now]
    obtain ⟨hclean, hdirty⟩ := run_saveText hrun₁
    by_cases htext : foundNote.text = text
    · obtain ⟨_, ⟨hfalse, _⟩ | ⟨_, err, hop, hanswer⟩⟩ := hclean htext
      · exact absurd hfalse.symm Bool.false_ne_true
      · refine Or.inr ⟨fun h => htitle h.1, env.clock w.calls, w.tick, err, List.mem_cons_self, rfl,
          ?_, hanswer⟩
        rw [← htext]
        exact hop
    · obtain ⟨hsecond, err, hop, hanswer⟩ := hdirty htext
      exact Or.inr ⟨fun h => htitle h.1, env.clock w.tick.calls, w.tick.tick, err,
        List.mem_cons_of_mem _ hsecond, rfl, hop, hanswer⟩

end ShareNotes.HandlerRuns
