import ShareNotes.Lib.Linearization
import ShareNotes.HandlerRuns

/-!
# Requests on notes as operations of a sequential object

The four requests that read or change a single note, and the object that they
are operations of: a table of titles and texts. The object is described without
the handlers. A request that runs alone, with a valid token and a database that
does not fail, answers what the object answers, dates apart, and leaves the table
that the object leaves.
-/

namespace ShareNotes.SequentialNotes

open ShareNotes.Lib.Decimal ShareNotes.Lib.KeyedRows ShareNotes.Lib.Interaction
open ShareNotes.Lib.Linearization
open ShareNotes.Token ShareNotes.NoteRecord ShareNotes.Linkify ShareNotes.Manager
open ShareNotes.Calls ShareNotes.Handlers ShareNotes.Routing ShareNotes.Runs
open ShareNotes.HandlerRuns
open Program

/-! ### The requests -/

inductive Job
  | newNote (form : Form)
  | saveNote (form : Form) (noteID : ℤ)
  | deleteNote (form : Form) (noteID : ℤ)
  | noteDetails (noteID : ℤ)

def Job.route : Job → Route
  | .newNote _ => .newNoteHandler
  | .saveNote _ noteID => .saveNoteHandler noteID
  | .deleteNote _ noteID => .deleteNoteHandler noteID
  | .noteDetails noteID => .noteDetailsHandler noteID

def Job.form : Job → Form
  | .newNote form => form
  | .saveNote form _ => form
  | .deleteNote form _ => form
  | .noteDetails _ => []

/-- The handler of the request. -/
def Job.body (env : Env) (job : Job) : Prog Response := job.route.body env job.form

/-- The form carries a token that the session ID manager accepts. -/
def ValidToken (sidManager : SessionIDManager) (form : Form) : Prop :=
  ∃ token, submittedToken form = .ok token ∧ sidManager.synchronizedTokenIsValid token = true

/-- The request carries a valid token, if its handler asks for one. -/
def Job.TokenValid (sidManager : SessionIDManager) : Job → Prop
  | .noteDetails _ => True
  | job => ValidToken sidManager job.form

/-! ### The object -/

abbrev Contents := RowTable (Bytes × Bytes)

/-- The titles and texts of a table. -/
def contents (notes : NotesTable) : Contents := notes.map fun e => (e.title, e.text)

/-- The title and the text that a form submits. -/
def submitted (form : Form) : Bytes × Bytes :=
  (formValue form (ascii "title"), formValue form (ascii "text"))

/-- What a request leaves. -/
def Job.apply : Job → Contents → Contents
  | .newNote form, m => m.insert (submitted form)
  | .saveNote form noteID, m => m.modify noteID fun _ => submitted form
  | .deleteNote _ noteID, m => m.erase noteID
  | .noteDetails _, m => m

/-- The response of a handler that ends with a page. -/
def pageAnswer (page : Page) : Option GoError → Response
  | some err => internalServerError err
  | none => .page page

def detailsPage (h : HtmlNote) : Page := ⟨ascii "Note.html", .htmlNote h⟩

/-- A response with the dates of its note blanked out. -/
def withoutDates : Response → Response
  | .page ⟨template, .htmlNote h⟩ =>
    .page ⟨template, .htmlNote { h with addDate := 0, changeDate := 0 }⟩
  | a => a

/-- The details of a note; there are none when the text cannot be turned into HTML. -/
def detailsAnswer (env : Env) (t : ℕ) (noteID : ℤ) (p : Bytes × Bytes) : Option Response :=
  (partialHtmlParser env.findAllString env.fuel p.2).map fun text =>
    pageAnswer (detailsPage ⟨noteID, p.1, text, 0, 0⟩) (env.writeErr t)

/-- What request `t` answers, dates apart. -/
def Job.answer (env : Env) (t : ℕ) : Job → Contents → Option Response
  | .newNote _, _ => some (.redirect (ascii "/"))
  | .saveNote _ noteID, m =>
    match m.lookup noteID with
    | none => some (internalServerError .noRows)
    | some _ => some (.redirect (notePath noteID))
  | .deleteNote _ _, _ => some (.redirect (ascii "/"))
  | .noteDetails noteID, m =>
    match m.lookup noteID with
    | none => some (internalServerError .noRows)
    | some p => detailsAnswer env t noteID p

/-- The object; its operations are requests with their numbers. -/
def notesObject (env : Env) : SeqObject (Job × ℕ) Contents (Option Response) where
  answer i m := i.1.answer env i.2 m
  apply i m := i.1.apply m

/-! ### Titles and texts after a call -/

theorem contents_insert (notes : NotesTable) (e : Entry) :
    contents (notes.insert e) = (contents notes).insert (e.title, e.text) :=
  RowTable.map_insert _ notes e

theorem contents_erase (notes : NotesTable) (noteID : ℤ) :
    contents (notes.erase noteID) = (contents notes).erase noteID :=
  RowTable.map_erase _ notes noteID

theorem lookup_contents (notes : NotesTable) (noteID : ℤ) :
    (contents notes).lookup noteID =
      (notes.lookup noteID).map fun e => (e.title, e.text) :=
  RowTable.lookup_map _ notes noteID

/-- **What a call does to titles and texts.** -/
def contentsEffect : Call → Contents → Contents
  | .addNote n, m => m.insert (n.title, n.text)
  | .updateNote n, m => m.modify n.noteID fun _ => (n.title, n.text)
  | .deleteNote noteID, m => m.erase noteID
  | _, m => m

theorem contents_effect (c : Call) (notes : NotesTable) :
    contents (effect c notes) = contentsEffect c (contents notes) := by
  cases c with
  | addNote n => exact contents_insert notes _
  | updateNote n =>
    rw [effect, contentsEffect, contents]
    exact RowTable.map_modify (fun e : Entry => (e.title, e.text)) notes n.noteID _
      (fun _ => (n.title, n.text)) fun e => rfl
  | deleteNote noteID => exact contents_erase notes noteID
  | _ => rfl

theorem noteToHtmlNote_noteOf (env : Env) (noteID : ℤ) (e : Entry) :
    noteToHtmlNote env.findAllString env.fuel (noteOf noteID e) =
      (partialHtmlParser env.findAllString env.fuel e.text).map fun text =>
        ⟨noteID, e.title, text, ofUnix e.addDate, ofUnix e.changeDate⟩ := rfl

/-! ### A request on its own -/

/-- The program runs to an end, with this answer, dates apart, and these contents. -/
def RunsAlone (env : Env) (t : ℕ) (p : Prog Response) (w : World) (a : Response) (m : Contents) :
    Prop :=
  ∃ a' es w', run (handle env) t p w = some (a', es, w') ∧ withoutDates a' = a ∧
    contents w'.notes = m ∧ w'.sidManager = w.sidManager

variable {env : Env} {t : ℕ} {w : World} {a : Response} {m : Contents}

theorem runsAlone_ret {a' : Response} (ha : withoutDates a' = a) (hm : contents w.notes = m) :
    RunsAlone env t (.ret a') w a m :=
  ⟨a', [], w, rfl, ha, hm, rfl⟩

theorem runsAlone_call {c : Call} {k : c.Result → Prog Response} {r : c.Result} {w₁ : World}
    (hop : handle env t c w = some (r, w₁)) (hsid : w₁.sidManager = w.sidManager)
    (hk : RunsAlone env t (k r) w₁ a m) : RunsAlone env t (.call c k) w a m := by
  obtain ⟨a', es, w', hrun, ha, hm, hsid'⟩ := hk
  refine ⟨a', ⟨t, c, w, r, w₁⟩ :: es, w', ?_, ha, hm, hsid'.trans hsid⟩
  exact (run_call_iff (handle env) t c k w w' a' _).mpr ⟨r, w₁, es, hop, hrun, rfl⟩

theorem runsAlone_checkToken {form : Form} {invalid : Bytes} {rest : Prog Response}
    (hvalid : ValidToken w.sidManager form) (hrest : RunsAlone env t rest w.tick a m) :
    RunsAlone env t (checkToken form invalid rest) w a m := by
  obtain ⟨token, htoken, hvalid⟩ := hvalid
  rw [checkToken, htoken]
  have hop : handle env t (.synchronizedTokenIsValid token) w = some (true, w.tick) := by
    rw [handle, hvalid]
  exact runsAlone_call hop rfl hrest

theorem runsAlone_now {k : Time → Prog Response}
    (hk : RunsAlone env t (k (env.clock w.calls)) w.tick a m) :
    RunsAlone env t (.call .now k) w a m :=
  runsAlone_call (c := .now) rfl rfl hk

theorem runsAlone_afterWrite {url : Bytes} {err : Option GoError} (herr : err = none)
    (hm : contents w.notes = m) : RunsAlone env t (afterWrite url err) w (.redirect url) m := by
  rw [herr]
  exact runsAlone_ret rfl hm

theorem noteTemplate_mem : ascii "Note.html" ∈ templates := by decide

theorem runsAlone_executePage {h : HtmlNote}
    (ha : withoutDates (pageAnswer (detailsPage h) (env.writeErr t)) = a)
    (hm : contents w.notes = m) : RunsAlone env t (executePage (detailsPage h)) w a m := by
  have htemplate : (detailsPage h).template ∈ templates := noteTemplate_mem
  have hop : handle env t (.executeTemplate (detailsPage h)) w =
      some (env.writeErr t, w.tick) := by
    rw [handle, if_pos htemplate]
  refine runsAlone_call hop rfl ?_
  cases hwrite : env.writeErr t with
  | some err =>
    rw [hwrite] at ha
    exact runsAlone_ret ha hm
  | none =>
    rw [hwrite] at ha
    exact runsAlone_ret ha hm

section Succeeds

variable (hdb : env.DatabaseSucceeds)

include hdb

theorem runsAlone_addNew (title text : Bytes) :
    RunsAlone env t (addNew title text) w (.redirect (ascii "/"))
      ((contents w.notes).insert (title, text)) := by
  refine runsAlone_now (runsAlone_now ?_)
  have hop : handle env t (.addNote (addedNote env w title text)) w.tick.tick = some (_, _) := rfl
  obtain ⟨herr, hnotes⟩ := addNote_succeeds hdb hop
  refine runsAlone_call hop rfl (runsAlone_afterWrite herr ?_)
  rw [hnotes, contents_effect]
  rfl

theorem runsAlone_deleteNote (noteID : ℤ) :
    RunsAlone env t (Prog.deleteNote noteID >>= afterWrite (ascii "/")) w (.redirect (ascii "/"))
      ((contents w.notes).erase noteID) := by
  have hop : handle env t (.deleteNote noteID) w = some (_, _) := rfl
  obtain ⟨herr, hnotes⟩ := deleteNote_succeeds hdb hop
  refine runsAlone_call hop rfl (runsAlone_afterWrite herr ?_)
  rw [hnotes, contents_effect]
  rfl

/-- The end of a save, when nothing was set only if there is nothing to change. -/
theorem runsAlone_saveIfDirty {noteID : ℤ} {saved : Bool × Note} (hid : saved.2.noteID = noteID)
    (hclean : saved.1 = false →
      (contents w.notes).modify noteID (fun _ => (saved.2.title, saved.2.text)) =
        contents w.notes) :
    RunsAlone env t (saveIfDirty noteID saved) w (.redirect (notePath noteID))
      ((contents w.notes).modify noteID fun _ => (saved.2.title, saved.2.text)) := by
  obtain ⟨dirtyBit, n⟩ := saved
  cases dirtyBit with
  | true =>
    have hop : handle env t (.updateNote n) w = some (_, _) := rfl
    obtain ⟨herr, hnotes⟩ := updateNote_succeeds hdb hop
    refine runsAlone_call hop rfl (runsAlone_afterWrite herr ?_)
    rw [hnotes, contents_effect, ← hid]
    rfl
  | false => exact runsAlone_ret rfl (hclean rfl).symm

theorem runsAlone_saveText {noteID : ℤ} {text : Bytes} {titled : Bool × Note}
    (hid : titled.2.noteID = noteID)
    (hclean : titled.1 = false → titled.2.text = text →
      (contents w.notes).modify noteID (fun _ => (titled.2.title, text)) = contents w.notes) :
    RunsAlone env t (saveText text titled >>= saveIfDirty noteID) w (.redirect (notePath noteID))
      ((contents w.notes).modify noteID fun _ => (titled.2.title, text)) := by
  obtain ⟨dirtyBit, n⟩ := titled
  by_cases htext : n.text = text
  · have hsaveText : saveText text (dirtyBit, n) = pure (dirtyBit, n) := if_neg fun h => h htext
    rw [hsaveText, pure_eq, ret_bind]
    subst htext
    exact runsAlone_saveIfDirty hdb hid fun hno => hclean hno rfl
  · have hsaveText : saveText text (dirtyBit, n) =
        .call .now fun now => .ret (true, n.setText text now) := if_pos htext
    rw [hsaveText, call_bind]
    refine runsAlone_now ?_
    have hsaved : (true, n.setText text (env.clock w.calls)).2.noteID = noteID := hid
    exact runsAlone_saveIfDirty hdb (w := w.tick) hsaved
      fun hno => absurd hno.symm Bool.false_ne_true

theorem runsAlone_saveFound {noteID : ℤ} {e : Entry} (hrow : w.notes.lookup noteID = some e)
    (title text : Bytes) :
    RunsAlone env t (saveFound noteID (noteOf noteID e) title text) w
      (.redirect (notePath noteID)) ((contents w.notes).modify noteID fun _ => (title, text)) := by
  by_cases htitle : e.title = title
  · have hsaveTitle : saveTitle (noteOf noteID e) title = pure (false, noteOf noteID e) :=
      if_neg fun h => h htitle
    rw [saveFound, hsaveTitle, pure_eq, ret_bind]
    subst htitle
    have htitled : (false, noteOf noteID e).2.noteID = noteID := rfl
    refine runsAlone_saveText hdb htitled fun _ htext => ?_
    have hsame : (contents w.notes).lookup noteID = some (e.title, text) := by
      rw [lookup_contents, hrow, ← htext]
      rfl
    exact RowTable.modify_of_fixed _ _ hsame rfl
  · have hsaveTitle : saveTitle (noteOf noteID e) title =
        .call .now fun now => .ret (true, (noteOf noteID e).setTitle title now) := if_pos htitle
    rw [saveFound, hsaveTitle, call_bind]
    refine runsAlone_now ?_
    have htitled : (true, (noteOf noteID e).setTitle title (env.clock w.calls)).2.noteID =
      noteID := rfl
    exact runsAlone_saveText hdb (w := w.tick) htitled
      fun hno => absurd hno.symm Bool.false_ne_true

theorem runsAlone_getNote {noteID : ℤ} {k : Except GoError Note → Prog Response}
    (hmissing : w.notes.lookup noteID = none →
      RunsAlone env t (k (.error .noRows)) w.tick a m)
    (hfound : ∀ e, w.notes.lookup noteID = some e →
      RunsAlone env t (k (.ok (noteOf noteID e))) w.tick a m) :
    RunsAlone env t (.call (.getNote noteID) k) w a m := by
  have hop : handle env t (.getNote noteID) w = some (_, w.tick) := rfl
  obtain ⟨_, hanswer⟩ := getNote_succeeds hdb hop
  refine runsAlone_call hop rfl ?_
  rw [hanswer]
  cases hrow : w.notes.lookup noteID with
  | none => exact hmissing hrow
  | some e => exact hfound e hrow

/-- **A request on its own does what the object does.** -/
theorem job_runsAlone {job : Job} (hvalid : job.TokenValid w.sidManager)
    (ha : job.answer env t (contents w.notes) = some a) :
    RunsAlone env t (job.body env) w a (job.apply (contents w.notes)) := by
  cases job with
  | newNote form =>
    rw [← Option.some.inj ha]
    exact runsAlone_checkToken hvalid (runsAlone_addNew hdb (w := w.tick) _ _)
  | deleteNote form noteID =>
    rw [← Option.some.inj ha]
    exact runsAlone_checkToken hvalid (runsAlone_deleteNote hdb (w := w.tick) noteID)
  | saveNote form noteID =>
    rw [Job.answer, lookup_contents] at ha
    refine runsAlone_getNote hdb (fun hrow => ?_) fun e hrow => ?_
    · rw [hrow] at ha
      have hsame : (contents w.notes).lookup noteID = none := by
        rw [lookup_contents, hrow]
        rfl
      refine runsAlone_ret (Option.some.inj ha) ?_
      show contents w.notes = (contents w.notes).modify noteID fun _ => submitted form
      exact (RowTable.modify_of_lookup_none _ _ hsame).symm
    · rw [hrow] at ha
      rw [← Option.some.inj ha]
      exact runsAlone_checkToken hvalid (runsAlone_saveFound hdb (w := w.tick.tick) hrow _ _)
  | noteDetails noteID =>
    rw [Job.answer, lookup_contents] at ha
    refine runsAlone_getNote hdb (fun hrow => ?_) fun e hrow => ?_
    · rw [hrow] at ha
      exact runsAlone_ret (Option.some.inj ha) rfl
    · rw [hrow] at ha
      obtain ⟨text, htext, ha⟩ := Option.map_eq_some_iff.mp ha
      show RunsAlone env t (withHtml (noteToHtmlNote env.findAllString env.fuel (noteOf noteID e))
        fun h => executePage (detailsPage h)) w.tick a _
      rw [noteToHtmlNote_noteOf, htext]
      refine runsAlone_executePage ?_ rfl
      rw [← ha]
      cases env.writeErr t <;> rfl

/-! ### Requests one after another -/

/-- **Requests one after another do what the object does.** -/
theorem runAll_of_replays {answers : Job × ℕ → Option Response} {is : List (Job × ℕ)}
    {m m' : Contents} (hreplays : Replays (notesObject env) answers is m m')
    (hanswers : ∀ i ∈ is, answers i ≠ none) {w : World} (hm : contents w.notes = m)
    (hvalid : ∀ i ∈ is, i.1.TokenValid w.sidManager) :
    ∃ served w', runAll (handle env) (is.map fun i => (i.2, i.1.body env)) w = some (served, w') ∧
      contents w'.notes = m' ∧
      List.Forall₂ (fun i o => o.thread = i.2 ∧ answers i = some (withoutDates o.answer)) is
        served := by
  induction hreplays generalizing w with
  | nil m => exact ⟨[], w, rfl, hm, List.Forall₂.nil⟩
  | @cons i is m m' hanswer _ ih =>
    obtain ⟨a, ha⟩ := Option.ne_none_iff_exists'.mp (hanswers i List.mem_cons_self)
    change i.1.answer env i.2 m = answers i at hanswer
    rw [← hm, ha] at hanswer
    obtain ⟨a', es, w₁, hrun, ha', hm₁, hsid⟩ :=
      job_runsAlone hdb (hvalid i List.mem_cons_self) hanswer
    rw [hm] at hm₁
    obtain ⟨served, w', hrest, hm', hserved⟩ := ih
      (fun j hj => hanswers j (List.mem_cons_of_mem i hj)) hm₁ fun j hj => by
        rw [hsid]
        exact hvalid j (List.mem_cons_of_mem i hj)
    refine ⟨⟨i.2, a', es⟩ :: served, w', ?_, hm', .cons ⟨rfl, ?_⟩ hserved⟩
    · rw [List.map_cons, runAll_cons_iff]
      exact ⟨a', es, w₁, served, hrun, hrest, rfl⟩
    · rw [ha, ha']

end Succeeds

end ShareNotes.SequentialNotes
