import ShareNotes.PageItems
import ShareNotes.MuxRedirects
import ShareNotes.NotePaths
import ShareNotes.StoreRefinement

/-!
# The forms that are served

A browser finds exactly one form on each page that `addNoteHandler` or
`preparePostHandler` answers with. It sends its controls to a path that the server
routes to the handler the page is for, with the number of the note that was looked up;
the hidden controls bring back the token of the page, and an edit form that nobody
touched brings back the note.
-/

namespace ShareNotes.ServedForms

open ShareNotes.Lib.Decimal ShareNotes.Lib.KeyedRows ShareNotes.Lib.Interaction
open ShareNotes.Lib.Monitors ShareNotes.Lib.HtmlForm ShareNotes.Lib.FormControls
open ShareNotes.Lib.Hypertext
open ShareNotes.Token ShareNotes.NoteRecord ShareNotes.Linkify ShareNotes.Manager
open ShareNotes.Calls ShareNotes.Handlers ShareNotes.Routing ShareNotes.Runs ShareNotes.Effects
open ShareNotes.TokenAuthenticity ShareNotes.FormPages ShareNotes.EditForms
open ShareNotes.UrlGrammar ShareNotes.MuxRedirects ShareNotes.NotePaths
open ShareNotes.HandlerRuns ShareNotes.StoreRefinement
open ShareNotes.Templates ShareNotes.PageItems

/-! ### Which pages have a form -/

/-- The pages with a form that a route answers with. -/
inductive FormPage : Route → Page → Prop
  | addNote (token : SynchronizedToken) :
    FormPage .addNoteHandler ⟨ascii "AddNote.html", .addNoteData token⟩
  | preparePost (urlName : Bytes) (note : Note) (token : SynchronizedToken) :
    FormPage (.preparePostHandler urlName note.noteID)
      ⟨urlName ++ ascii ".html", .confirmNoteData note token⟩

/-- A note that is found has the number that was asked for. -/
def foundNotes : Monitor Call Call.Result Unit where
  allows _ _ := True
  expects c r :=
    match c, r with
    | .getNote noteID, .ok n => n.noteID = noteID
    | _, _ => True
  next _ _ _ := ()

theorem foundNotes_fits (env : Env) (t : ℕ) :
    foundNotes.Fits (handle env) (fun _ => True) t := by
  intro _ c w r w' _ _ hop
  refine ⟨?_, trivial⟩
  cases c with
  | getNote noteID =>
    rw [handle, Option.some.injEq, Prod.mk.injEq] at hop
    cases r with
    | error err => exact trivial
    | ok n =>
      obtain ⟨e, _, rfl⟩ := getNote_ok hop.1
      rfl
  | _ => exact trivial

/-- A program whose pages with a form are those of the route. -/
abbrev ServesForms (route : Route) (p : Prog Response) : Prop :=
  Follows foundNotes (fun _ a => ∀ page, a = .page page → page.template ∈ formTemplates →
    FormPage route page) () p

section Handlers

variable {route : Route}

theorem servesForms_call {c : Call} {k : c.Result → Prog Response}
    (hk : ∀ r, foundNotes.expects c r → ServesForms route (k r)) :
    ServesForms route (.call c k) :=
  ⟨trivial, hk⟩

/-- An answer that is no page. -/
theorem servesForms_noPage {a : Response} (ha : ∀ page, a ≠ .page page) :
    ServesForms route (.ret a) :=
  fun page hpage => absurd hpage (ha page)

theorem servesForms_error (err : GoError) : ServesForms route (.ret (internalServerError err)) :=
  servesForms_noPage (by simp [internalServerError])

theorem executePage_servesForms {page : Page}
    (hpage : page.template ∈ formTemplates → FormPage route page) :
    ServesForms route (executePage page) := by
  refine servesForms_call fun err _ => ?_
  cases err with
  | some err => exact servesForms_error err
  | none =>
    intro page' hpage'
    rw [← Response.page.inj hpage']
    exact hpage

theorem afterWrite_servesForms (url : Bytes) (err : Option GoError) :
    ServesForms route (afterWrite url err) := by
  cases err with
  | some err => exact servesForms_error err
  | none => exact servesForms_noPage (by simp)

theorem checkToken_servesForms {form : Form} {invalid : Bytes} {rest : Prog Response}
    (hrest : ServesForms route rest) : ServesForms route (checkToken form invalid rest) := by
  rw [checkToken]
  cases submittedToken form with
  | error err => exact servesForms_error err
  | ok token =>
    refine servesForms_call fun valid _ => ?_
    cases valid with
    | true => exact hrest
    | false => exact servesForms_noPage (by simp)

theorem listing_servesForms (toHtml : Note → Option HtmlNote) (filtered : Bool)
    (loaded : Lib.Slices.Slice × Option GoError) :
    ServesForms route (listing toHtml filtered loaded) :=
  listing_follows (fun _ _ => ⟨trivial, fun _ => rfl⟩) ⟨trivial, fun _ => rfl⟩
    (fun _ => executePage_servesForms fun h => absurd h index_not_form) servesForms_error toHtml
    filtered loaded

theorem saveIfDirty_servesForms (noteID : ℤ) (saved : Bool × Note) :
    ServesForms route (saveIfDirty noteID saved) := by
  obtain ⟨dirtyBit, foundNote⟩ := saved
  cases dirtyBit with
  | true => exact servesForms_call fun err _ => afterWrite_servesForms _ err
  | false => exact servesForms_noPage (by simp)

theorem saveText_servesForms (noteID : ℤ) (text : Bytes) (titled : Bool × Note) :
    ServesForms route (saveText text titled >>= saveIfDirty noteID) := by
  rw [saveText]
  split
  · exact servesForms_call fun now _ => saveIfDirty_servesForms noteID _
  · exact saveIfDirty_servesForms noteID _

end Handlers

/-- **Every handler body** answers with the form pages of its route only. -/
theorem body_servesForms (env : Env) (form : Form) (route : Route) :
    ServesForms route (route.body env form) := by
  cases route with
  | indexHandler => exact servesForms_call fun loaded _ => listing_servesForms _ false loaded
  | addNoteHandler =>
    exact servesForms_call fun token _ => executePage_servesForms fun _ => .addNote token
  | newNoteHandler =>
    refine checkToken_servesForms (servesForms_call fun addDate _ => ?_)
    refine servesForms_call fun changeDate _ => ?_
    exact servesForms_call fun err _ => afterWrite_servesForms _ err
  | preparePostHandler urlName noteID =>
    refine servesForms_call fun found hfound => ?_
    cases found with
    | error err => exact servesForms_error err
    | ok foundNote =>
      obtain rfl : foundNote.noteID = noteID := hfound
      exact servesForms_call fun token _ =>
        executePage_servesForms fun _ => .preparePost urlName foundNote token
  | noteDetailsHandler noteID =>
    refine servesForms_call fun found _ => ?_
    cases found with
    | error err => exact servesForms_error err
    | ok foundNote =>
      exact details_follows ⟨trivial, fun _ => rfl⟩ fun h _ =>
        executePage_servesForms fun hin => absurd hin note_not_form
  | saveNoteHandler noteID =>
    refine servesForms_call fun found _ => ?_
    cases found with
    | error err => exact servesForms_error err
    | ok foundNote =>
      refine checkToken_servesForms ?_
      rw [saveTitle]
      split
      · exact servesForms_call fun now _ => saveText_servesForms noteID _ _
      · exact saveText_servesForms noteID _ _
  | deleteNoteHandler noteID =>
    refine checkToken_servesForms (servesForms_call fun err _ => ?_)
    exact afterWrite_servesForms _ err
  | pasteBinNoteHandler noteID =>
    refine checkToken_servesForms (servesForms_call fun found _ => ?_)
    cases found with
    | error err => exact servesForms_error err
    | ok foundNote =>
      refine servesForms_call fun output _ => ?_
      cases output with
      | error err => exact servesForms_error err
      | ok output => exact servesForms_noPage (by simp)
  | titleFilterHandler filterInput =>
    exact servesForms_call fun loaded _ => listing_servesForms _ true loaded
  | textFilterHandler filterInput =>
    exact servesForms_call fun loaded _ => listing_servesForms _ true loaded
  | bothFilterHandler filterInput =>
    exact servesForms_call fun loaded _ => listing_servesForms _ true loaded
  | notFound => exact servesForms_noPage (by simp)

/-- **A form page that answers a request** is one of the request's route. -/
theorem formPage_of_run {env : Env} {t : ℕ} {request : Request} {w w' : World} {page : Page}
    {es : Trace} (hrun : run (handle env) t (serveHTTP env request) w = some (.page page, es, w'))
    (htemplate : page.template ∈ formTemplates) : FormPage (routed request.path) page := by
  have hserves : ServesForms (routed request.path) (serveHTTP env request) := by
    rcases serveHTTP_cases env request with ⟨_, hserve | ⟨url, hserve⟩⟩ | ⟨message, hserve⟩
    · rw [hserve]
      exact servesForms_noPage (by simp)
    · rw [hserve]
      exact servesForms_noPage (by simp)
    · rw [hserve]
      refine servesForms_call fun tooMany _ => ?_
      cases tooMany with
      | true => exact servesForms_noPage (by simp)
      | false => exact body_servesForms env request.form (routed request.path)
  exact (hserves.run (foundNotes_fits env t) trivial hrun).1 page rfl htemplate

/-! ### Paths -/

/-- The route of a path, if there is one, is the one of a pattern. -/
theorem routed_cases (path : Bytes) :
    routed path = .notFound ∨ ∃ p ∈ routes, routed path = p.2.2 path := by
  rw [routed]
  cases muxRedirect (routes.map Prod.fst) path with
  | some url => exact Or.inl rfl
  | none =>
    cases hlongest : longestPattern path routes with
    | none => exact Or.inl rfl
    | some p => exact Or.inr ⟨p, (longestPattern_mem hlongest).1, rfl⟩

/-- A number that was read from a path is one that an `int` can hold. -/
theorem atoi_range {digits : Bytes} (hne : digits ≠ []) (hdigits : digits.all isDigit = true) :
    0 ≤ atoi digits ∧ atoi digits < 2 ^ 63 := by
  rw [atoi_digits hne hdigits]
  split <;> omega

/-- **What a path asks for** when it leads to a form about a note. -/
theorem routed_preparePost {path urlName : Bytes} {noteID : ℤ}
    (h : routed path = .preparePostHandler urlName noteID) :
    urlName ∈ prepareNames ∧ 0 ≤ noteID ∧ noteID < 2 ^ 63 := by
  have hcaptured {f : Bytes → Bytes → Route} (valid : Option (Bytes × Bytes))
      (hf : captured f valid = .preparePostHandler urlName noteID)
      (hother : ∀ name tail, f name tail ≠ .preparePostHandler urlName noteID) : False := by
    cases valid with
    | none => exact absurd hf (by simp [captured])
    | some p => exact hother p.1 p.2 hf
  have hprepare (hf : captured (fun name digits => .preparePostHandler name (atoi digits))
      (validPreparePostPath path) = .preparePostHandler urlName noteID) :
      urlName ∈ prepareNames ∧ 0 ≤ noteID ∧ noteID < 2 ^ 63 := by
    cases hvalid : validPreparePostPath path with
    | none =>
      rw [hvalid] at hf
      exact absurd hf (by simp [captured])
    | some p =>
      obtain ⟨name, digits⟩ := p
      rw [hvalid, captured, Route.preparePostHandler.injEq] at hf
      obtain ⟨hname, _, hne, hdigits⟩ := of_findStringSubmatch hvalid
      rw [← hf.1, ← hf.2]
      exact ⟨hname, atoi_range hne hdigits⟩
  rcases routed_cases path with hnone | ⟨p, hp, hroute⟩
  · rw [hnone] at h
    exact absurd h (by simp)
  · rw [hroute] at h
    simp only [routes, List.mem_cons, List.not_mem_nil, or_false] at hp
    rcases hp with rfl | rfl | rfl | rfl | rfl | rfl | rfl | rfl | rfl | rfl | rfl | rfl | rfl
    · exact absurd h (by dsimp only; split <;> simp)
    · exact absurd h (by dsimp only; split <;> simp)
    · exact absurd h (by dsimp only; split <;> simp)
    · exact hprepare h
    · exact hprepare h
    · exact hprepare h
    all_goals
      dsimp only at h
      exact (hcaptured _ h fun _ _ => by simp).elim

theorem kept_names : ∀ name ∈ anchoredBodies.map Prod.fst, name ≠ [] ∧ name ≠ ascii "." ∧
    name ≠ ascii ".." ∧ 47 ∉ name := by decide

/-- **A path that was printed** leads to the body of its name, with its number. -/
theorem routed_printed {name : Bytes} {f : ℤ → Route}
    (hmem : (name, isDigit, fun digits => f (atoi digits)) ∈ anchoredBodies)
    {noteID : ℤ} (hnonneg : 0 ≤ noteID) (hlt : noteID < 2 ^ 63) :
    routed (printed name noteID) = f noteID := by
  obtain ⟨hne, hdigits, hatoi⟩ := itoa_digits hnonneg hlt
  have hno {c : UInt8} (hc : isDigit c = false) : c ∉ itoa noteID := by
    intro hin
    rw [List.all_eq_true.mp hdigits c hin] at hc
    exact absurd hc (by decide)
  have hkept : Kept (itoa noteID) := by
    refine ⟨hne, ?_, ?_, hno (by decide)⟩ <;> intro h <;>
      exact hno (c := 46) (by decide) (by rw [h]; decide)
  -- no pattern has three slashes
  have hpattern : slashed name ++ itoa noteID ++ ascii "/" ∉ routes.map Prod.fst := by
    have hcount : ∀ pattern ∈ routes.map Prod.fst, pattern.count 47 ≤ 2 := by decide
    intro hin
    have hslashes := hcount _ hin
    have hone : (ascii "/").count 47 = 1 := by decide
    rw [slashed] at hslashes
    simp only [List.count_append, hone] at hslashes
    omega
  obtain ⟨hname, hdot, hdots, hslash⟩ := kept_names name
    (List.mem_map.mpr ⟨_, hmem, rfl⟩)
  have hleads : Leads (printed name noteID) (printed name noteID) :=
    leads_slashed ⟨hname, hdot, hdots, hslash⟩ (fun _ => hkept) hpattern
  rw [hleads.routed, printed, chosen_anchored _ hmem, if_pos ⟨hne, hdigits⟩]
  exact congrArg f hatoi

/-! ### What a browser finds -/

/-- The forms on a page. -/
def webForms (formatTime : Time → Bytes) (page : Page) : List WebForm :=
  forms (pageItems formatTime page)

/-- What a page is for: the handler that its form should reach. -/
def purpose (page : Page) : Route :=
  match page.data with
  | .addNoteData _ => .newNoteHandler
  | .confirmNoteData note _ =>
    if page.template = ascii "EditNote.html" then .saveNoteHandler note.noteID
    else if page.template = ascii "DeleteNote.html" then .deleteNoteHandler note.noteID
    else .pasteBinNoteHandler note.noteID
  | _ => .notFound

/-- The hidden controls, as `hiddenInputs` are read. -/
theorem hiddenInputs_read {token : SynchronizedToken} (htoken : Carried token.tokenString) :
    (hiddenInputs token).filterMap readInput =
      [(ascii "share_note_token_id", formatDecimal token.id.toNat),
        (ascii "share_note_token_string", token.tokenString)] := by
  have hid : readInput (hiddenInput (ascii "share_note_token_id")
      (formatDecimal token.id.toNat)) = some (_, _) :=
    readInput_hiddenInput (by decide) (carried_formatDecimal token.id.toNat)
  have hstring : readInput (hiddenInput (ascii "share_note_token_string")
      token.tokenString) = some (_, _) :=
    readInput_hiddenInput (by decide) htoken
  rw [hiddenInputs, List.filterMap_cons, hid, List.filterMap_cons, hstring]
  rfl

theorem forms_addNote (token : SynchronizedToken) : forms (addNoteItems token) =
    [⟨ascii "/NewNote/", [(ascii "share_note_token_id", formatDecimal token.id.toNat),
      (ascii "share_note_token_string", token.tokenString), (ascii "title", []),
      (ascii "text", [])]⟩] := rfl

theorem forms_editNote (note : Note) (token : SynchronizedToken) (title : Bytes) :
    forms (editNoteItems note token title) =
      [⟨pathOf "/SaveNote/" note.noteID,
        [(ascii "share_note_token_id", formatDecimal token.id.toNat),
          (ascii "share_note_token_string", token.tokenString), (ascii "title", title),
          (ascii "text", dropLineFeed (displayed note.text))]⟩] := rfl

theorem forms_confirm (path : String) (note : Note) (token : SynchronizedToken) :
    forms (confirmItems path note token) =
      [⟨pathOf path note.noteID, [(ascii "share_note_token_id", formatDecimal token.id.toNat),
        (ascii "share_note_token_string", token.tokenString)]⟩] := rfl

/-- The names of the inputs that are not hidden. -/
def inputNames : Route → List Bytes
  | .newNoteHandler => [ascii "title", ascii "text"]
  | .saveNoteHandler _ => [ascii "title", ascii "text"]
  | _ => []

/-- **The form of a page**: the only one on it, and it leads to what the page is for. It holds the
controls of `hiddenInputs` and the other inputs. -/
structure HasForm (formatTime : Time → Bytes) (page : Page) (token : SynchronizedToken)
    (f : WebForm) (inputs : List (Bytes × Bytes)) : Prop where
  only : webForms formatTime page = [f]
  leads : routed f.action = purpose page
  controls : f.controls = (hiddenInputs token).filterMap readInput ++ inputs
  names : inputs.map Prod.fst = inputNames (purpose page)

theorem routed_newNote : routed (ascii "/NewNote/") = .newNoteHandler := by decide

section Pages

variable (formatTime : Time → Bytes) {token : SynchronizedToken}
  (htoken : Carried token.tokenString)

include htoken

theorem hasForm_of_view {page : Page} {nodes : List Node} {items : List Item} {f : WebForm}
    {inputs : List (Bytes × Bytes)} (hpage : pageHtml formatTime page = some nodes)
    (hview : view (execute nodes) = items) (hforms : forms items = [f])
    (hleads : routed f.action = purpose page)
    (hcontrols : f.controls = (ascii "share_note_token_id", formatDecimal token.id.toNat) ::
      (ascii "share_note_token_string", token.tokenString) :: inputs)
    (hnames : inputs.map Prod.fst = inputNames (purpose page)) :
    HasForm formatTime page token f inputs := by
  refine ⟨?_, hleads, ?_, hnames⟩
  · rw [webForms, pageItems_eq hpage, hview, hforms]
  · rw [hcontrols, hiddenInputs_read htoken]
    rfl

theorem addNote_hasForm : ∃ f, HasForm formatTime ⟨ascii "AddNote.html", .addNoteData token⟩
    token f [(ascii "title", []), (ascii "text", [])] :=
  ⟨_, hasForm_of_view formatTime htoken rfl (view_addNoteHtml htoken) (forms_addNote token)
    routed_newNote rfl rfl⟩

theorem editNote_hasForm {note : Note} (hnonneg : 0 ≤ note.noteID) (hlt : note.noteID < 2 ^ 63) :
    ∃ f inputs, HasForm formatTime (editPage note token) token f inputs ∧
      (SubmittedNote note.title note.text → EscapedExactly note →
        inputs = (editInputs note).filterMap id) := by
  obtain ⟨title, htitle, hview⟩ := view_editNoteHtml note htoken
  refine ⟨_, [(ascii "title", title), (ascii "text", dropLineFeed (displayed note.text))],
    hasForm_of_view formatTime htoken rfl hview (forms_editNote note token title)
      (routed_printed (f := .saveNoteHandler) (List.mem_of_getElem? (i := 4) rfl) hnonneg hlt)
      rfl rfl, fun hnote hexact => ?_⟩
  have hzero : 0 ∉ lineFeeds note.text := fun h =>
    (mem_lineFeedsFrom h).elim (by decide) hexact.text
  rw [editInputs, readTitle hexact.title hnote.title, readText hexact.text, displayed,
    replaceZero_eq_self hzero, htitle hexact.title, withoutBreaks_eq_self hnote.title]
  rfl

theorem deleteNote_hasForm {note : Note} (hnonneg : 0 ≤ note.noteID) (hlt : note.noteID < 2 ^ 63) :
    ∃ f, HasForm formatTime ⟨ascii "DeleteNote" ++ ascii ".html", .confirmNoteData note token⟩
      token f [] :=
  ⟨_, hasForm_of_view formatTime htoken rfl (view_deleteNoteHtml note htoken)
    (forms_confirm _ note token)
    (routed_printed (f := .deleteNoteHandler) (List.mem_of_getElem? (i := 5) rfl) hnonneg hlt)
    rfl rfl⟩

theorem pasteBinNote_hasForm {note : Note} (hnonneg : 0 ≤ note.noteID)
    (hlt : note.noteID < 2 ^ 63) :
    ∃ f, HasForm formatTime ⟨ascii "PasteBinNote" ++ ascii ".html", .confirmNoteData note token⟩
      token f [] :=
  ⟨_, hasForm_of_view formatTime htoken rfl (view_pasteBinNoteHtml note htoken)
    (forms_confirm _ note token)
    (routed_printed (f := .pasteBinNoteHandler) (List.mem_of_getElem? (i := 6) rfl) hnonneg hlt)
    rfl rfl⟩

/-- **Every form page** has its form; an edit page has the inputs of `editInputs`. -/
theorem formPage_hasForm {path : Bytes} {page : Page} (hpage : FormPage (routed path) page)
    (hpageToken : pageToken page.data = some token) :
    ∃ f inputs, HasForm formatTime page token f inputs ∧
      ∀ note, page = editPage note token → SubmittedNote note.title note.text →
        EscapedExactly note → inputs = (editInputs note).filterMap id := by
  generalize hroute : routed path = route at hpage
  cases hpage with
  | addNote token' =>
    obtain rfl : token' = token := Option.some.inj hpageToken
    obtain ⟨f, hf⟩ := addNote_hasForm formatTime htoken
    exact ⟨f, _, hf, fun note hedit => absurd hedit (by simp [editPage])⟩
  | preparePost urlName note token' =>
    obtain rfl : token' = token := Option.some.inj hpageToken
    obtain ⟨hname, hnonneg, hlt⟩ := routed_preparePost hroute
    have hother {template : Bytes} (hne : template ≠ ascii "EditNote" ++ ascii ".html") (n : Note)
        (hedit : Page.mk template (.confirmNoteData note token') = editPage n token') : False :=
      hne (congrArg Page.template hedit)
    simp only [prepareNames, List.mem_cons, List.not_mem_nil, or_false] at hname
    rcases hname with rfl | rfl | rfl
    · obtain ⟨f, hf⟩ := deleteNote_hasForm formatTime htoken hnonneg hlt
      exact ⟨f, _, hf, fun n hedit => (hother (by decide) n hedit).elim⟩
    · obtain ⟨f, inputs, hf, hinputs⟩ := editNote_hasForm formatTime htoken hnonneg hlt
      refine ⟨f, inputs, hf, fun n hedit => ?_⟩
      have hsame : note = n := by
        have hdata := congrArg Page.data hedit
        exact (PageData.confirmNoteData.inj hdata).1
      rw [← hsame]
      exact hinputs
    · obtain ⟨f, hf⟩ := pasteBinNote_hasForm formatTime htoken hnonneg hlt
      exact ⟨f, _, hf, fun n hedit => (hother (by decide) n hedit).elim⟩

end Pages

/-! ### What arrives -/

/-- The form that the server gets. -/
def submission (f : WebForm) : Form := f.controls.filterMap submitControl

/-- A form in which a title and a text were typed. -/
def filledIn (title text : Bytes) (f : WebForm) : WebForm :=
  (f.type (ascii "title") title).type (ascii "text") text

theorem submitControl_eq (c : Bytes × Bytes) :
    submitControl c = some (c.1, submittedBreaks c.2) := by
  rw [submitControl, submitField_eq]

/-- The hidden controls arrive as they are. -/
theorem submission_eq {token : SynchronizedToken} (htoken : Carried token.tokenString)
    {f : WebForm} {inputs : List (Bytes × Bytes)}
    (hcontrols : f.controls = (hiddenInputs token).filterMap readInput ++ inputs) :
    submission f = tokenForm (formatDecimal token.id.toNat) token.tokenString ++
      inputs.filterMap submitControl := by
  have hid : submittedBreaks (formatDecimal token.id.toNat) = formatDecimal token.id.toNat :=
    submittedBreaks_eq_self fun b hb => ((carried_formatDecimal _).plain b hb).2
  have hstring : submittedBreaks token.tokenString = token.tokenString :=
    submittedBreaks_eq_self fun b hb => (htoken.plain b hb).2
  rw [submission, hcontrols, hiddenInputs_read htoken, List.filterMap_append,
    List.filterMap_cons, submitControl_eq, List.filterMap_cons, submitControl_eq, hid, hstring]
  rfl

theorem inputNames_cases (route : Route) :
    inputNames route = [ascii "title", ascii "text"] ∨ inputNames route = [] := by
  cases route <;> simp [inputNames]

/-- **What a form that was filled in holds**: the hidden controls, and what was typed. -/
theorem submission_filledIn {formatTime : Time → Bytes} {page : Page} {token : SynchronizedToken}
    {f : WebForm} {inputs : List (Bytes × Bytes)} (hform : HasForm formatTime page token f inputs)
    (htoken : Carried token.tokenString) (title text : Bytes) :
    submission (filledIn title text f) =
      tokenForm (formatDecimal token.id.toNat) token.tokenString ++
        (inputNames (purpose page)).zip [submittedBreaks title, submittedBreaks text] := by
  have hnames := hform.names
  have hcontrols : (filledIn title text f).controls = (hiddenInputs token).filterMap readInput ++
      (inputNames (purpose page)).zip [title, text] := by
    rw [filledIn, WebForm.type, WebForm.type, hform.controls, hiddenInputs_read htoken]
    rcases inputNames_cases (purpose page) with htwo | hnone
    · rw [htwo] at hnames ⊢
      obtain ⟨c, cs, rfl, hc, hcs⟩ := List.map_eq_cons_iff.mp hnames
      obtain ⟨d, rfl, hd⟩ := List.map_eq_singleton_iff.mp hcs
      obtain ⟨_, v⟩ := c
      obtain ⟨_, x⟩ := d
      subst hc hd
      rfl
    · rw [hnone] at hnames ⊢
      rw [List.map_eq_nil_iff.mp hnames]
      rfl
  rw [submission_eq htoken hcontrols]
  rcases inputNames_cases (purpose page) with htwo | hnone
  · rw [htwo]
    simp only [List.zip_cons_cons, List.filterMap_cons, submitControl_eq]
    rfl
  · rw [hnone]
    rfl

/-- The token of a form that was filled in is read back. -/
theorem submittedToken_tokenForm (token : SynchronizedToken) (rest : Form) :
    submittedToken (tokenForm (formatDecimal token.id.toNat) token.tokenString ++ rest) =
      .ok token := by
  have hid : formValue (tokenForm (formatDecimal token.id.toNat) token.tokenString ++ rest)
      (ascii "share_note_token_id") = formatDecimal token.id.toNat := rfl
  have hstring : formValue (tokenForm (formatDecimal token.id.toNat) token.tokenString ++ rest)
      (ascii "share_note_token_string") = token.tokenString := rfl
  rw [submittedToken, hid, hstring, parseUint64_formatDecimal]

/-! ### What submitting it does -/

section Accepted

variable {env : Env} {t : ℕ} {w w' : World} {a : Response} {es : Trace}

/-- A token that is known lets the request go on. -/
theorem checkToken_accepted {form : Form} {invalid : Bytes} {rest : Prog Response}
    {token : SynchronizedToken} (htoken : submittedToken form = .ok token)
    (hvalid : w.sidManager.synchronizedTokenIsValid token = true)
    (hrun : run (handle env) t (checkToken form invalid rest) w = some (a, es, w')) :
    accepted es = true := by
  rw [checkToken, htoken] at hrun
  obtain ⟨r, w₁, es', hop, _, rfl⟩ := (run_call_iff (handle env) t _ _ w w' a es).mp hrun
  rw [handle, Option.some.injEq, Prod.mk.injEq, hvalid] at hop
  obtain ⟨rfl, _⟩ := hop
  rfl

/-- A request that changes notes is accepted: one for a new note, for removing a note, or for a
note that is there. -/
theorem serveHTTP_accepted (hdb : env.DatabaseSucceeds) {request : Request}
    {token : SynchronizedToken} (htoken : submittedToken request.form = .ok token)
    (hvalid : w.sidManager.synchronizedTokenIsValid token = true)
    (hlet : limiterRefuses env w = false) (hchanges : Changes (routed request.path))
    (hsave : ∀ noteID, routed request.path = .saveNoteHandler noteID →
      w.notes.lookup noteID ≠ none)
    (hrun : run (handle env) t (serveHTTP env request) w = some (a, es, w')) :
    accepted es = true := by
  rcases serveHTTP_cases env request with ⟨hnot, _⟩ | ⟨message, hserve⟩
  · rw [hnot] at hchanges
    exact hchanges.elim
  · rw [hserve] at hrun
    obtain ⟨e, es', hsilent, rfl, htime, ⟨hrefused, _⟩ | ⟨_, hbody⟩⟩ := run_limited hrun
    · rw [hlet] at hrefused
      exact absurd hrefused (by decide)
    rw [hsilent.accepted_cons]
    rw [← htime.sidManager] at hvalid
    cases hroute : routed request.path with
    | newNoteHandler =>
      rw [hroute] at hbody
      exact checkToken_accepted htoken hvalid hbody
    | deleteNoteHandler noteID =>
      rw [hroute] at hbody
      exact checkToken_accepted htoken hvalid hbody
    | saveNoteHandler noteID =>
      rw [hroute] at hbody
      obtain ⟨found, w₁, es₁, hget, hrest, rfl⟩ :=
        (run_call_iff (handle env) t _ _ e.after w' a es').mp hbody
      obtain ⟨rfl, hfound⟩ := getNote_succeeds hdb hget
      obtain ⟨row, hrow⟩ := Option.ne_none_iff_exists'.mp (hsave noteID hroute)
      rw [htime.notes, hrow] at hfound
      subst hfound
      have haccepted : accepted es₁ = true :=
        checkToken_accepted (w := e.after.tick) htoken hvalid hrest
      rw [accepted, List.any_cons]
      exact (Bool.or_eq_true _ _).mpr (Or.inr haccepted)
    | _ =>
      rw [hroute] at hchanges
      exact hchanges.elim

end Accepted

/-- The request did what the page is for, with this title and this text. -/
def Fulfilled (route : Route) (title text : Bytes) (a : Response) (m m' : NoteMap) : Prop :=
  match route with
  | .newNoteHandler => a = .redirect (ascii "/") ∧ ∃ k addDate changeDate, m.get k = none ∧
    m' = m.set k (some ⟨title, text, addDate, changeDate⟩)
  | .saveNoteHandler k => a = .redirect (notePath k) ∧ ∃ e changeDate, m.get k = some e ∧
    m' = m.set k (some ⟨title, text, e.addDate, changeDate⟩)
  | .deleteNoteHandler k => a = .redirect (ascii "/") ∧ m' = m.set k none
  | _ => m' = m

theorem NoteMap.set_self {m : NoteMap} {k : ℤ} {e : Entry} (he : m.get k = some e) :
    m.set k (some e) = m := by
  ext1
  funext j
  rw [NoteMap.get_set]
  split
  · rename_i hj
    rw [hj, he]
  · rfl

/-- An accepted step does what its route is for. -/
theorem fulfilled_of_step {h : Handled} {m m' : NoteMap} (hstep : Step h m m')
    (haccepted : Changes h.route → h.accepted = true) :
    Fulfilled h.route h.title h.text h.answer m m' := by
  obtain ⟨form, route, accepted, answer, seconds⟩ := h
  cases route with
  | newNoteHandler =>
    obtain ⟨hanswer, k, addDate, changeDate, _, hk, hm'⟩ := hstep.newNote rfl (haccepted trivial)
    exact ⟨hanswer, k, addDate, changeDate, hk, hm'⟩
  | saveNoteHandler k =>
    obtain ⟨hanswer, e, he, ⟨htitle, htext, hm'⟩ | ⟨_, now, _, hm'⟩⟩ :=
      hstep.saveNote k rfl (haccepted trivial)
    · refine ⟨hanswer, e, e.changeDate, he, ?_⟩
      rw [← htitle, ← htext, hm']
      exact (NoteMap.set_self he).symm
    · exact ⟨hanswer, e, now, he, hm'⟩
  | deleteNoteHandler k => exact hstep.deleteNote k rfl (haccepted trivial)
  | _ => exact hstep.other id

/-- The title and the text of such a request are those that were typed. -/
theorem fulfilled_typed {id tokenString title text : Bytes} (htitle : ∀ b ∈ title, b ≠ 10 ∧ b ≠ 13)
    {route : Route} {a : Response} {m m' : NoteMap}
    (h : Fulfilled route
      (formValue (tokenForm id tokenString ++
        (inputNames route).zip [submittedBreaks title, submittedBreaks text]) (ascii "title"))
      (formValue (tokenForm id tokenString ++
        (inputNames route).zip [submittedBreaks title, submittedBreaks text]) (ascii "text"))
      a m m') :
    Fulfilled route title (submittedBreaks text) a m m' := by
  have hsame := submittedBreaks_eq_self htitle
  cases route with
  | newNoteHandler =>
    change Fulfilled _ (submittedBreaks title) (submittedBreaks text) a m m' at h
    rw [hsame] at h
    exact h
  | saveNoteHandler k =>
    change Fulfilled _ (submittedBreaks title) (submittedBreaks text) a m m' at h
    rw [hsame] at h
    exact h
  | _ => exact h

/-- **Every form page of a run** is one of the route of its request. -/
theorem formPages_run {env : Env} {w₀ w : World} {requests : List Request} {served : List Served}
    (hrun : serveAll env requests w₀ = some (served, w)) :
    ∀ o ∈ served, ∀ page, o.answer = .page page → page.template ∈ formTemplates →
      ∃ path, FormPage (routed path) page := by
  refine serveAll_induction (P := fun _ served _ => ∀ o ∈ served, ∀ page,
    o.answer = .page page → page.template ∈ formTemplates →
      ∃ path, FormPage (routed path) page) ?_ ?_ hrun
  · exact fun o ho => absurd ho List.not_mem_nil
  · intro requests served w request a es w' _ ih hlast o ho page hpage htemplate
    rw [List.mem_append, List.mem_singleton] at ho
    rcases ho with ho | rfl
    · exact ih o ho page hpage htemplate
    · obtain rfl : a = .page page := hpage
      exact ⟨request.path, formPage_of_run hlast htemplate⟩

/-- **The forms that are served do what their pages are for.** Each page with a form has exactly
one, whose hidden controls are those of `hiddenInputs` and whose other inputs, on an edit page
that nobody touched, give `untouchedForm`. Submitted after the run, with whatever title and text
was typed, it reaches the handler of the page, its token is accepted, and the request adds,
saves or removes the note that the page is about, unless the rate limiter refuses it or the
note to be saved is gone. -/
theorem served_forms_work {env : Env} (hdb : env.DatabaseSucceeds) {notes : NotesTable}
    {requests : List Request} {served : List Served} {w : World}
    (hrun : serveAll env requests (World.initial notes) = some (served, w))
    (hcount : (issued (traceOf served)).length ≤ 2 ^ 64) (formatTime : Time → Bytes) {o : Served}
    (ho : o ∈ served) {page : Page} (hpage : o.answer = .page page)
    (htemplate : page.template ∈ formTemplates) :
    ∃ f, webForms formatTime page = [f] ∧ routed f.action = purpose page ∧
      (∀ note token, page = editPage note token → SubmittedNote note.title note.text →
        EscapedExactly note → submission f = untouchedForm note token) ∧
      ∀ (title text : Bytes) (t : ℕ) (a : Response) (es : Trace) (w' : World),
        (∀ b ∈ title, b ≠ 10 ∧ b ≠ 13) →
        run (handle env) t (serveHTTP env ⟨f.action, submission (filledIn title text f)⟩) w =
          some (a, es, w') →
        limiterRefuses env w = false →
        (∀ k, purpose page = .saveNoteHandler k → w.notes.lookup k ≠ none) →
        Fulfilled (purpose page) title (submittedBreaks text) a (abs w.notes) (abs w'.notes) := by
  have hI := (issuedBy_run hrun).1
  obtain ⟨token, hgen, htoken⟩ := pages_carry hrun o ho page hpage htemplate
  have hin : token ∈ issued (traceOf served) := by
    rw [issued_traceOf, List.mem_flatMap]
    exact ⟨o, ho, hgen⟩
  obtain ⟨hlen, hletters⟩ := hI.strings token hin
  have hcarried := carried_letters hlen hletters
  obtain ⟨path, hformPage⟩ := formPages_run hrun o ho page hpage htemplate
  obtain ⟨f, inputs, hform, hedit⟩ := formPage_hasForm formatTime hcarried hformPage htoken
  refine ⟨f, hform.only, hform.leads, fun note token' heq hnote hexact => ?_,
    fun title text t a es w' hbreaks hsubmit hlet hsave => ?_⟩
  · subst heq
    obtain rfl : token' = token := Option.some.inj htoken
    have hinputs := hedit note rfl hnote hexact
    rw [submission_eq hcarried hform.controls, hinputs, untouchedForm,
      unmodifiedForm_eq htoken hlen hletters, List.filterMap_filterMap]
    rfl
  · have hstep := serveHTTP_step hdb hsubmit
    have hcontents := submission_filledIn hform hcarried title text
    have hfulfilled := fulfilled_of_step hstep fun hchanges =>
      serveHTTP_accepted hdb (by rw [hcontents]; exact submittedToken_tokenForm token _)
        (hI.valid_of_mem hcount hin) hlet hchanges (fun k hk => hsave k (hform.leads ▸ hk)) hsubmit
    change Fulfilled (routed f.action)
      (formValue (submission (filledIn title text f)) (ascii "title"))
      (formValue (submission (filledIn title text f)) (ascii "text")) a _ _ at hfulfilled
    rw [hform.leads, hcontents] at hfulfilled
    exact fulfilled_typed hbreaks hfulfilled

/-- A title and a text for the edit form of `openedNote twoLines`. -/
def typedIn (f : WebForm) : Request :=
  ⟨f.action, submission (filledIn (ascii "b") (ascii "eggs\nbread") f)⟩

/-- What a browser finds on that page, and what it sends. -/
theorem typedIn_openedPage : ∃ f,
    webForms (fun _ => []) (editPage (openedNote twoLines) openedToken) = [f] ∧
      typedIn f = ⟨ascii "/SaveNote/1", tokenForm (ascii "1") quietString ++
        [(ascii "title", ascii "b"), (ascii "text", ascii "eggs\r\nbread")]⟩ := by
  have hcarried : Carried openedToken.tokenString :=
    carried_letters List.length_replicate openedToken_letters
  obtain ⟨title, _, hview⟩ := view_editNoteHtml (openedNote twoLines) hcarried
  have hleads : routed (pathOf "/SaveNote/" 1) = .saveNoteHandler 1 := by decide
  have hform : HasForm (fun _ => []) (editPage (openedNote twoLines) openedToken) openedToken _ _ :=
    hasForm_of_view _ hcarried rfl hview (forms_editNote _ _ title) hleads rfl rfl
  refine ⟨_, hform.only, ?_⟩
  rw [typedIn, submission_filledIn hform hcarried, Request.mk.injEq]
  dsimp only
  decide

/-- The edit form of a note with two lines, untouched, and with a title and a text typed
into it. -/
theorem served_forms_work_twoLines :
    ∃ served w f a es w', serveAll quiet (opened twoLines) (World.initial RowTable.empty) =
        some (served, w) ∧
      webForms (fun _ => []) (editPage (openedNote twoLines) openedToken) = [f] ∧
      routed f.action = .saveNoteHandler 1 ∧
      submission f = untouchedForm (openedNote twoLines) openedToken ∧
      run (handle quiet) 3 (serveHTTP quiet (typedIn f)) w = some (a, es, w') ∧
      Fulfilled (.saveNoteHandler 1) (ascii "b") (ascii "eggs\r\nbread") a (abs w.notes)
        (abs w'.notes) := by
  have hserve : (serveAll quiet (opened twoLines) (World.initial RowTable.empty)).map
      (fun p => ((p.1[2]?).map fun o => o.answer, (issued (traceOf p.1)).length,
        limiterRefuses quiet p.2, (p.2.notes.lookup 1).isSome)) =
      some (some (.page (editPage (openedNote twoLines) openedToken)), 2, false, true) := by
    decide
  have hsave : (serveAll quiet (opened twoLines) (World.initial RowTable.empty)).map
      (fun p => (run (handle quiet) 3 (serveHTTP quiet ⟨ascii "/SaveNote/1",
        tokenForm (ascii "1") quietString ++
          [(ascii "title", ascii "b"), (ascii "text", ascii "eggs\r\nbread")]⟩) p.2).isSome) =
      some true := by
    decide
  obtain ⟨⟨served, w⟩, hrun, hall⟩ := Option.map_eq_some_iff.mp hserve
  simp only [Prod.mk.injEq] at hall
  obtain ⟨hanswer, hlen, hlet, hrow⟩ := hall
  obtain ⟨o, ho, hpage⟩ := Option.map_eq_some_iff.mp hanswer
  rw [hrun, Option.map_some, Option.some.injEq, Option.isSome_iff_exists] at hsave
  obtain ⟨⟨a, es, w'⟩, hsubmit⟩ := hsave
  obtain ⟨f, honly, hleads, huntouched, hwork⟩ := served_forms_work quiet_succeeds hrun
    (by rw [hlen]; decide) (fun _ => []) (List.mem_of_getElem? ho) hpage edit_is_form
  obtain ⟨f', honly', htyped⟩ := typedIn_openedPage
  obtain rfl : f' = f := List.singleton_inj.mp (honly'.symm.trans honly)
  have hpurpose : purpose (editPage (openedNote twoLines) openedToken) = .saveNoteHandler 1 := rfl
  have hnote : SubmittedNote (ascii "a") twoLines :=
    submittedNote_typed (openedNote_title twoLines) _
  rw [← htyped] at hsubmit
  refine ⟨served, w, f', a, es, w', hrun, honly, hleads.trans hpurpose,
    huntouched _ _ rfl hnote ⟨by decide, by decide⟩, hsubmit, ?_⟩
  have hbroken : submittedBreaks (ascii "eggs\nbread") = ascii "eggs\r\nbread" := by decide
  have hdone := hwork (ascii "b") (ascii "eggs\nbread") 3 a es w' (by decide +kernel) hsubmit hlet
    fun k hk => by
      rw [hpurpose, Route.saveNoteHandler.injEq] at hk
      rw [← hk]
      exact Option.isSome_iff_ne_none.mp hrow
  rw [hpurpose, hbroken] at hdone
  exact hdone

end ShareNotes.ServedForms
