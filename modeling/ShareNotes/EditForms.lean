import ShareNotes.Lib.FormControls
import ShareNotes.FormPages
import ShareNotes.HandlerRuns
import ShareNotes.Effects

/-!
# Saving an edit form that was not touched

`EditNote.html` writes the title into a text input and the text into a text area. A
browser drops a line break that stands directly behind the start tag of the area, and
the template has no line break of its own there. So the form comes back as the note was,
and the note stays as it is, exactly when the text does not start with a line break; a
text that does comes back without it and is saved so.
-/

namespace ShareNotes.EditForms

open ShareNotes.Lib.Decimal ShareNotes.Lib.KeyedRows ShareNotes.Lib.Interaction
open ShareNotes.Lib.HtmlForm ShareNotes.Lib.HtmlTokens ShareNotes.Lib.FormControls
open ShareNotes.Token ShareNotes.NoteRecord ShareNotes.Manager ShareNotes.Calls
open ShareNotes.Handlers ShareNotes.Routing ShareNotes.Runs ShareNotes.Effects
open ShareNotes.TokenAuthenticity ShareNotes.FormPages ShareNotes.HandlerRuns
open Program

/-! ### The form -/

/-- The page of an `EditNote` request. -/
def editPage (note : Note) (token : SynchronizedToken) : Page :=
  ⟨ascii "EditNote" ++ ascii ".html", .confirmNoteData note token⟩

/-- The text input of the title, up to its value. -/
def titleInputStart : Bytes :=
  ascii "<input name=\"title\" rows=\"1\" cols=\"50\" placeholder=\"Title\" value="

def textAreaStart : Bytes :=
  ascii "<textarea name=\"text\" rows=\"20\" cols=\"80\" placeholder=\"Text\">"

/-- The text input and the text area, as a browser shows them. -/
def editInputs (note : Note) : List (Option (Bytes × Bytes)) :=
  [readTextInput (textInput titleInputStart note.title),
    readTextArea textAreaStart (textArea textAreaStart note.text)]

/-- A field that was shown, as it is submitted. -/
def submitControl (field : Bytes × Bytes) : Option (Bytes × Bytes) :=
  submitField (field.1, submittedBreaks field.2)

/-- The form that arrives when the page's form is submitted untouched. -/
def untouchedForm (note : Note) (token : SynchronizedToken) : Form :=
  unmodifiedForm (editPage note token) ++
    (editInputs note).filterMap fun field => field.bind submitControl

/-- A note that was submitted with a form: no line break in its title, and those of a
submission in its text. -/
structure SubmittedNote (title text : Bytes) : Prop where
  title : ∀ b ∈ title, b ≠ 10 ∧ b ≠ 13
  text : Submitted text

/-- What the two inputs submit, whatever text is typed. -/
theorem submittedNote_typed {title : Bytes} (htitle : ∀ b ∈ title, b ≠ 10 ∧ b ≠ 13) (s : Bytes) :
    SubmittedNote title (submittedBreaks s) :=
  ⟨htitle, submitted_submittedBreaks s⟩

/-- The zero byte is the one that the escapers of `html/template` replace and no browser gives
back; that is the `html/template` of go1.5.2, the version the README names. -/
structure EscapedExactly (note : Note) : Prop where
  title : 0 ∉ note.title
  text : 0 ∉ note.text

/-- A text without the line break at its start. -/
def withoutFirstBreak (text : Bytes) : Bytes := if [13, 10] <+: text then text.drop 2 else text

/-- The tag of the text input before its value is read. -/
def titleTag : Tag :=
  ⟨false, ascii "input", [(ascii "name", ascii "title"), (ascii "rows", ascii "1"),
    (ascii "cols", ascii "50"), (ascii "placeholder", ascii "Title")]⟩

set_option maxRecDepth 4000 in
theorem tokenize_titleInputStart (s : Bytes) :
    tokenize (titleInputStart ++ s) = tokens (.beforeAttributeValue titleTag (ascii "value")) s :=
  rfl

theorem readTitle {title : Bytes} (hzero : 0 ∉ title) (hbreaks : ∀ b ∈ title, b ≠ 10 ∧ b ≠ 13) :
    readTextInput (textInput titleInputStart title) = some (ascii "title", title) := by
  have hreturn : 13 ∉ titleInputStart := fun h =>
    absurd (List.contains_iff_mem.mpr h) (by decide)
  exact readTextInput_textInput tokenize_titleInputStart hreturn (by decide) (by decide) hzero
    hbreaks

theorem readText {text : Bytes} (hzero : 0 ∉ text) :
    readTextArea textAreaStart (textArea textAreaStart text) =
      some (ascii "text", dropLineFeed (lineFeeds text)) := by
  have hplain : (textAreaStart.all fun b => b ≠ 10 ∧ b ≠ 13) = true := by decide
  have hstart : ∀ b ∈ textAreaStart, b ≠ 10 ∧ b ≠ 13 := fun b hb =>
    of_decide_eq_true (List.all_eq_true.mp hplain b hb)
  exact readTextArea_textArea (by decide) hstart (by decide) hzero

/-- **What an untouched form holds.** -/
theorem untouchedForm_eq {note : Note} {token : SynchronizedToken}
    (hnote : SubmittedNote note.title note.text) (hexact : EscapedExactly note)
    (hlen : token.tokenString.length = 100) (hletters : ∀ b ∈ token.tokenString, b ∈ characters) :
    untouchedForm note token =
      tokenForm (formatDecimal token.id.toNat) token.tokenString ++
        [(ascii "title", note.title), (ascii "text", withoutFirstBreak note.text)] := by
  have htoken : unmodifiedForm (editPage note token) = tokenForm _ _ :=
    unmodifiedForm_eq rfl hlen hletters
  have htitle := readTitle hexact.title hnote.title
  have htext := readText hexact.text
  have hbreaks : submittedBreaks note.title = note.title := submittedBreaks_eq_self hnote.title
  rw [untouchedForm, htoken, editInputs, htitle, htext, List.filterMap_cons, Option.bind_some,
    submitControl, submitField_eq, hbreaks, List.filterMap_cons, Option.bind_some, submitControl,
    submitField_eq, submittedBreaks_dropLineFeed hnote.text]
  rfl

/-! ### Saving it -/

/-- The row of the note holds its title and its text. -/
def Stored (notes : NotesTable) (note : Note) : Prop :=
  ∃ e, notes.lookup note.noteID = some e ∧ e.title = note.title ∧ e.text = note.text

theorem save_clean {foundNote : Note} {title text : Bytes} (htitle : foundNote.title = title)
    (htext : foundNote.text = text) :
    saveTitle foundNote title >>= saveText text = pure (false, foundNote) := by
  have hsaveTitle : saveTitle foundNote title = pure (false, foundNote) := if_neg fun h => h htitle
  have hsaveText : saveText text (false, foundNote) = pure (false, foundNote) :=
    if_neg fun h => h htext
  rw [hsaveTitle, pure_eq, ret_bind, hsaveText]
  rfl

section Saves

variable {env : Env} {t : ℕ} {w w' : World} {a : Response} {es : Trace} {noteID : ℤ}

/-- A run of `saveNoteHandler` changes nothing before its two comparisons. -/
theorem run_saveNoteHandler {form : Form}
    (hrun : run (handle env) t (saveNoteHandler form noteID) w = some (a, es, w')) :
    w'.notes = w.notes ∨ ∃ e es', w.notes.lookup noteID = some e ∧
      run (handle env) t (saveFound noteID (noteOf noteID e) (formValue form (ascii "title"))
        (formValue form (ascii "text"))) w.tick.tick = some (a, es', w') := by
  obtain ⟨found, w₁, es₁, hget, hrest, _⟩ := (run_call_iff (handle env) t _ _ w w' a es).mp hrun
  rw [handle, Option.some.injEq, Prod.mk.injEq] at hget
  obtain ⟨hfound, rfl⟩ := hget
  cases found with
  | error err =>
    obtain ⟨_, _, rfl⟩ := of_run_ret hrest
    exact Or.inl rfl
  | ok foundNote =>
    obtain ⟨e, hrow, rfl⟩ := getNote_ok hfound
    rcases run_checkToken hrest with ⟨_, _, _, hsame⟩ | ⟨_, _, es₂, _, _, _, _, _, hsave⟩
    · exact Or.inl hsame
    · exact Or.inr ⟨e, es₂, hrow, hsave⟩

/-- **A save of what is stored** leaves the notes as they are. -/
theorem saveNoteHandler_keeps {form : Form} {e : Entry} (hrow : w.notes.lookup noteID = some e)
    (htitle : formValue form (ascii "title") = e.title)
    (htext : formValue form (ascii "text") = e.text)
    (hrun : run (handle env) t (saveNoteHandler form noteID) w = some (a, es, w')) :
    w'.notes = w.notes := by
  rcases run_saveNoteHandler hrun with hsame | ⟨e', es', hrow', hsave⟩
  · exact hsame
  · rw [hrow, Option.some.injEq] at hrow'
    subst hrow'
    rcases run_saveFound hsave with ⟨_, _, hsame, _⟩ | ⟨hne, _⟩
    · exact hsame
    · exact absurd ⟨htitle.symm, htext.symm⟩ hne

/-- The same for a request, behind the mux and the rate limiter. -/
theorem serveHTTP_keeps {request : Request} {e : Entry}
    (hroute : routed request.path = .saveNoteHandler noteID)
    (hrow : w.notes.lookup noteID = some e)
    (htitle : formValue request.form (ascii "title") = e.title)
    (htext : formValue request.form (ascii "text") = e.text)
    (hrun : run (handle env) t (serveHTTP env request) w = some (a, es, w')) :
    w'.notes = w.notes := by
  rcases serveHTTP_cases env request with ⟨hnot, _⟩ | ⟨message, hserve⟩
  · rw [hroute] at hnot
    exact absurd hnot (by simp)
  · rw [hserve, hroute] at hrun
    obtain ⟨c, es', _, _, htime, ⟨_, _, _, rfl⟩ | ⟨_, hbody⟩⟩ := run_limited hrun
    · exact htime.notes
    · rw [← htime.notes] at hrow ⊢
      exact saveNoteHandler_keeps hrow htitle htext hbody

end Saves

/-! ### Notes that were submitted -/

/-- Every row holds what was submitted with a form. -/
def AllSubmitted (notes : NotesTable) : Prop :=
  ∀ noteID e, notes.lookup noteID = some e → SubmittedNote e.title e.text

/-- A form as a browser submits it. -/
def TypedForm (form : Form) : Prop :=
  SubmittedNote (formValue form (ascii "title")) (formValue form (ascii "text"))

section Submissions

variable {env : Env} {t : ℕ} {w w' : World} {a : Response} {es : Trace} {form : Form}

theorem allSubmitted_insert {notes : NotesTable} {e : Entry} (hnotes : AllSubmitted notes)
    (he : SubmittedNote e.title e.text) : AllSubmitted (notes.insert e) := by
  intro noteID e' hrow
  rw [RowTable.lookup_insert] at hrow
  split at hrow
  · rw [← Option.some.inj hrow]
    exact he
  · exact hnotes noteID e' hrow

theorem allSubmitted_modify {notes : NotesTable} {k : ℤ} {f : Entry → Entry}
    (hnotes : AllSubmitted notes) (hf : ∀ e, SubmittedNote (f e).title (f e).text) :
    AllSubmitted (notes.modify k f) := by
  intro noteID e' hrow
  rw [RowTable.lookup_modify] at hrow
  split at hrow
  · obtain ⟨e, _, he⟩ := Option.map_eq_some_iff.mp hrow
    rw [← he]
    exact hf e
  · exact hnotes noteID e' hrow

theorem allSubmitted_erase {notes : NotesTable} {k : ℤ} (hnotes : AllSubmitted notes) :
    AllSubmitted (notes.erase k) := by
  intro noteID e' hrow
  rw [RowTable.lookup_erase] at hrow
  split at hrow
  · exact absurd hrow (by simp)
  · exact hnotes noteID e' hrow

theorem newNoteHandler_submitted (hform : TypedForm form) (hnotes : AllSubmitted w.notes)
    (hrun : run (handle env) t (newNoteHandler form) w = some (a, es, w')) :
    AllSubmitted w'.notes := by
  rcases run_checkToken hrun with ⟨_, _, _, hsame⟩ | ⟨_, _, es₂, _, _, _, _, _, hadd⟩
  · rw [hsame]
    exact hnotes
  · obtain ⟨_, err, hop, _⟩ := run_addNew hadd
    rcases handle_notes hop with hsame | heffect
    · rw [hsame]
      exact hnotes
    · rw [heffect]
      exact allSubmitted_insert hnotes hform

theorem saveNoteHandler_submitted {noteID : ℤ} (hform : TypedForm form)
    (hnotes : AllSubmitted w.notes)
    (hrun : run (handle env) t (saveNoteHandler form noteID) w = some (a, es, w')) :
    AllSubmitted w'.notes := by
  rcases run_saveNoteHandler hrun with hsame | ⟨e, es', _, hsave⟩
  · rw [hsame]
    exact hnotes
  · rcases run_saveFound hsave with ⟨_, _, hsame, _⟩ | ⟨_, now, w₁, err, _, hbefore, hop, _⟩
    · rw [hsame]
      exact hnotes
    · have hbefore' : AllSubmitted w₁.notes := by
        rw [hbefore]
        exact hnotes
      rcases handle_notes hop with hsame | heffect
      · rw [hsame]
        exact hbefore'
      · rw [heffect]
        exact allSubmitted_modify hbefore' fun _ => hform

/-- The requests that write no title and no text. -/
theorem allSubmitted_other {route : Route} {before after : NotesTable}
    (hstep : TableStep route before after) (hnew : route ≠ .newNoteHandler)
    (hsave : ∀ noteID, route ≠ .saveNoteHandler noteID) (hnotes : AllSubmitted before) :
    AllSubmitted after := by
  cases hstep with
  | same => exact hnotes
  | insert notes e => exact absurd rfl hnew
  | modify notes noteID f => exact absurd rfl (hsave noteID)
  | erase notes noteID => exact allSubmitted_erase hnotes

/-- One request with a submitted form keeps it so. -/
theorem serveHTTP_submitted {request : Request} (hform : TypedForm request.form)
    (hnotes : AllSubmitted w.notes)
    (hrun : run (handle env) t (serveHTTP env request) w = some (a, es, w')) :
    AllSubmitted w'.notes := by
  have hstep := serveHTTP_tableStep hrun
  rcases serveHTTP_cases env request with ⟨hnot, _⟩ | ⟨message, hserve⟩
  · rw [hnot] at hstep
    exact allSubmitted_other hstep (by simp) (by simp) hnotes
  · rw [hserve] at hrun
    obtain ⟨c, es', _, _, htime, ⟨_, _, _, rfl⟩ | ⟨_, hbody⟩⟩ := run_limited hrun
    · rw [htime.notes]
      exact hnotes
    · cases hroute : routed request.path with
      | newNoteHandler =>
        rw [hroute] at hbody
        rw [← htime.notes] at hnotes
        exact newNoteHandler_submitted hform hnotes hbody
      | saveNoteHandler noteID =>
        rw [hroute] at hbody
        rw [← htime.notes] at hnotes
        exact saveNoteHandler_submitted hform hnotes hbody
      | _ =>
        rw [hroute] at hstep
        exact allSubmitted_other hstep (by simp) (by simp) hnotes

/-- **Every note of a run was submitted with a form** when the forms of the run were. -/
theorem allSubmitted_run {notes : NotesTable} {requests : List Request} {served : List Served}
    (hrun : serveAll env requests (World.initial notes) = some (served, w))
    (hnotes : AllSubmitted notes) (hforms : ∀ request ∈ requests, TypedForm request.form) :
    AllSubmitted w.notes := by
  refine serveAll_induction (P := fun requests _ w =>
    (∀ request ∈ requests, TypedForm request.form) → AllSubmitted w.notes) ?_ ?_ hrun hforms
  · exact fun _ => hnotes
  · intro requests served w request a es w' _ ih hlast hforms
    rw [List.forall_mem_append, List.forall_mem_singleton] at hforms
    exact serveHTTP_submitted hforms.2 (ih hforms.1) hlast

end Submissions

/-! ### Opening and saving -/

/-- The untouched form brings back what is stored, `dirtyBit` stays false for it, and
saving it leaves the notes as they are, in every state that holds the note. -/
structure Unchanged (note : Note) (token : SynchronizedToken) : Prop where
  title : formValue (untouchedForm note token) (ascii "title") = note.title
  text : formValue (untouchedForm note token) (ascii "text") = note.text
  clean : ∀ foundNote : Note, foundNote.title = note.title → foundNote.text = note.text →
    saveTitle foundNote (formValue (untouchedForm note token) (ascii "title")) >>=
      saveText (formValue (untouchedForm note token) (ascii "text")) = pure (false, foundNote)
  stored : ∀ (env : Env) (t : ℕ) (request : Request) (w w' : World) (a : Response) (es : Trace),
    routed request.path = .saveNoteHandler note.noteID →
    request.form = untouchedForm note token → Stored w.notes note →
    run (handle env) t (serveHTTP env request) w = some (a, es, w') → w'.notes = w.notes

theorem unchanged_of_values {note : Note} {token : SynchronizedToken}
    (htitle : formValue (untouchedForm note token) (ascii "title") = note.title)
    (htext : formValue (untouchedForm note token) (ascii "text") = note.text) :
    Unchanged note token where
  title := htitle
  text := htext
  clean := fun _ hfoundTitle hfoundText =>
    save_clean (hfoundTitle.trans htitle.symm) (hfoundText.trans htext.symm)
  stored := by
    intro env t request w w' a es hroute hform hstored hrun
    obtain ⟨e, hrow, hrowTitle, hrowText⟩ := hstored
    rw [← hform] at htitle htext
    exact serveHTTP_keeps hroute hrow (htitle.trans hrowTitle.symm) (htext.trans hrowText.symm) hrun

theorem withoutFirstBreak_eq_iff (text : Bytes) :
    withoutFirstBreak text = text ↔ ¬[13, 10] <+: text := by
  rw [withoutFirstBreak]
  by_cases hstarts : [13, 10] <+: text
  · rw [if_pos hstarts]
    refine iff_of_false (fun h => ?_) fun h => h hstarts
    have hlength := congrArg List.length h
    have hle : 2 ≤ text.length := hstarts.length_le
    rw [List.length_drop] at hlength
    omega
  · rw [if_neg hstarts]
    exact iff_of_true rfl hstarts

theorem edit_is_form : ascii "EditNote" ++ ascii ".html" ∈ formTemplates := by decide

/-- The tokens of the pages of a run, with their strings. -/
theorem token_of_page {env : Env} {notes : NotesTable} {requests : List Request}
    {served : List Served} {w : World}
    (hrun : serveAll env requests (World.initial notes) = some (served, w)) {o : Served}
    (ho : o ∈ served) {note : Note} {token : SynchronizedToken}
    (hpage : o.answer = .page (editPage note token)) :
    token.tokenString.length = 100 ∧ ∀ b ∈ token.tokenString, b ∈ characters := by
  obtain ⟨token', hgen, htoken⟩ := pages_carry hrun o ho _ hpage edit_is_form
  have hsame : token = token' := Option.some.inj htoken
  have hin : token ∈ issued (traceOf served) := by
    rw [hsame, issued_traceOf, List.mem_flatMap]
    exact ⟨o, ho, hgen⟩
  exact (issuedBy_run hrun).1.strings token hin

/-- **Saving an edit form untouched** changes nothing, exactly when the text does not
start with a line break. -/
theorem untouched_edit_iff {env : Env} {notes : NotesTable} {requests : List Request}
    {served : List Served} {w : World}
    (hrun : serveAll env requests (World.initial notes) = some (served, w)) {o : Served}
    (ho : o ∈ served) {note : Note} {token : SynchronizedToken}
    (hpage : o.answer = .page (editPage note token))
    (hnote : SubmittedNote note.title note.text) (hexact : EscapedExactly note) :
    Unchanged note token ↔ ¬[13, 10] <+: note.text := by
  obtain ⟨hlen, hletters⟩ := token_of_page hrun ho hpage
  have hform := untouchedForm_eq hnote hexact hlen hletters
  have htitle : formValue (untouchedForm note token) (ascii "title") = note.title := by
    rw [hform]
    rfl
  have htext : formValue (untouchedForm note token) (ascii "text") =
      withoutFirstBreak note.text := by
    rw [hform]
    rfl
  rw [← withoutFirstBreak_eq_iff]
  constructor
  · intro h
    exact htext.symm.trans h.text
  · intro h
    exact unchanged_of_values htitle (htext.trans h)

/-- The fields of a form with a title and this text. -/
def typed (text : Bytes) : Form := [(ascii "title", ascii "a"), (ascii "text", text)]

/-- A note is created with this text, and its edit form is opened. -/
def opened (text : Bytes) : List Request :=
  [⟨ascii "/AddNote/", []⟩, ⟨ascii "/NewNote/", tokenForm (ascii "0") quietString ++ typed text⟩,
    ⟨ascii "/EditNote/1", []⟩]

/-- The note of such a run, and the token of its form. -/
def openedNote (text : Bytes) : Note :=
  ⟨1, ascii "a", text, 1500000005000000000, 1500000006000000000⟩

def openedToken : SynchronizedToken := ⟨1, quietString⟩

theorem openedNote_title (text : Bytes) : ∀ b ∈ (openedNote text).title, b ≠ 10 ∧ b ≠ 13 := by
  intro b hb
  rw [List.mem_singleton.mp hb]
  decide

theorem openedToken_letters : ∀ b ∈ openedToken.tokenString, b ∈ characters := by
  intro b hb
  rw [List.eq_of_mem_replicate hb]
  decide

def twoLines : Bytes := submittedBreaks (ascii "milk\nbread")

theorem untouched_edit_iff_twoLines : Unchanged (openedNote twoLines) openedToken := by
  have hserve : (serveAll quiet (opened twoLines) (World.initial RowTable.empty)).bind
      (fun p => (p.1[2]?).map fun o => o.answer) =
      some (.page (editPage (openedNote twoLines) openedToken)) := by decide
  obtain ⟨⟨served, w⟩, hrun, hlast⟩ := Option.bind_eq_some_iff.mp hserve
  obtain ⟨o, ho, hpage⟩ := Option.map_eq_some_iff.mp hlast
  have hnote : SubmittedNote (ascii "a") twoLines := submittedNote_typed (openedNote_title twoLines) _
  exact (untouched_edit_iff hrun (List.mem_of_getElem? ho) hpage hnote
    ⟨by decide, by decide⟩).mpr (by decide)

def leadingBreak : Bytes := submittedBreaks (ascii "\nmilk")

/-- The edit form of a text with a line break at its start is opened and saved untouched. -/
def openedAndSaved : List Request :=
  opened leadingBreak ++
    [⟨ascii "/SaveNote/1", untouchedForm (openedNote leadingBreak) openedToken⟩]

/-- The line break is gone afterwards, and the note has a new change date. -/
theorem leadingBreak_isLost :
    ∃ served w o, serveAll quiet openedAndSaved (World.initial RowTable.empty) =
        some (served, w) ∧ served[2]? = some o ∧
      o.answer = .page (editPage (openedNote leadingBreak) openedToken) ∧
      SubmittedNote (ascii "a") leadingBreak ∧ EscapedExactly (openedNote leadingBreak) ∧
      w.notes.lookup 1 = some ⟨ascii "a", ascii "milk", 1500000005, 1500000015⟩ ∧
      ¬Unchanged (openedNote leadingBreak) openedToken := by
  have hnote : SubmittedNote (ascii "a") leadingBreak :=
    submittedNote_typed (openedNote_title leadingBreak) _
  have hexact : EscapedExactly (openedNote leadingBreak) := ⟨by decide, by decide⟩
  have hform : untouchedForm (openedNote leadingBreak) openedToken =
      tokenForm (ascii "1") quietString ++ typed (ascii "milk") :=
    untouchedForm_eq hnote hexact List.length_replicate openedToken_letters
  have hserve : (serveAll quiet openedAndSaved (World.initial RowTable.empty)).bind
      (fun p => (p.1[2]?).map fun o => (o.answer, p.2.notes.lookup 1)) =
      some (.page (editPage (openedNote leadingBreak) openedToken),
        some ⟨ascii "a", ascii "milk", 1500000005, 1500000015⟩) := by
    rw [openedAndSaved, hform]
    decide
  obtain ⟨⟨served, w⟩, hrun, hlast⟩ := Option.bind_eq_some_iff.mp hserve
  obtain ⟨o, ho, hpair⟩ := Option.map_eq_some_iff.mp hlast
  rw [Prod.mk.injEq] at hpair
  refine ⟨served, w, o, hrun, ho, hpair.1, hnote, hexact, hpair.2, fun h => ?_⟩
  have htext := h.text
  rw [hform] at htext
  exact absurd htext (by decide)

end ShareNotes.EditForms
