import ShareNotes.Calls

/-!
# The request handlers

Each handler as a program over the calls of `World`, under the name that it has
in the source. The check of the submitted token, which four handlers repeat with
their own message, is `checkToken`; the loop over a listing, which two repeat,
is `renderNotes`.
-/

namespace ShareNotes.Handlers

open ShareNotes.Lib.Decimal ShareNotes.Lib.Slices ShareNotes.Lib.Interaction
open ShareNotes.Token ShareNotes.NoteRecord ShareNotes.Linkify ShareNotes.Manager ShareNotes.Calls
open Program

/-- The first argument of `http.Error`. -/
inductive Message
  | error (err : GoError)
  | text (text : Bytes)
  deriving DecidableEq

inductive Response
  | page (page : Page)
  | httpError (message : Message) (code : ℕ)
  | notFound
  | redirect (url : Bytes)
  | movedPermanently (url : Bytes)
  deriving DecidableEq

/-- `http.Error(writer, err.Error(), http.StatusInternalServerError)`. -/
def internalServerError (err : GoError) : Response := .httpError (.error err) 500

/-- The values submitted with a request. -/
abbrev Form := List (Bytes × Bytes)

/-- `request.FormValue(key)`. -/
def formValue (form : Form) (key : Bytes) : Bytes := (form.lookup key).getD []

/-- `strconv.ParseUint(s, 10, 64)`. -/
def parseUint64 (s : Bytes) : Except GoError UInt64 :=
  match parseUint (2 ^ 64) s with
  | .ok n => .ok (UInt64.ofNat n)
  | .error err => .error (.numError (ascii "ParseUint") s err)

/-- The token fields of a form, parsed. -/
def submittedToken (form : Form) : Except GoError SynchronizedToken :=
  match parseUint64 (formValue form (ascii "share_note_token_id")) with
  | .ok id => .ok ⟨id, formValue form (ascii "share_note_token_string")⟩
  | .error err => .error err

/-- The token check of the handlers that change something. -/
def checkToken (form : Form) (invalid : Bytes) (rest : Prog Response) : Prog Response :=
  match submittedToken form with
  | .error err => pure (internalServerError err)
  | .ok token => do
    let valid ← Prog.synchronizedTokenIsValid token
    if valid then rest else pure (.httpError (.text invalid) 500)

/-- Answer with a page, or with the error of executing its template. -/
def executePage (page : Page) : Prog Response := do
  let err ← Prog.executeTemplate page
  match err with
  | some err => pure (internalServerError err)
  | none => pure (.page page)

/-- The response of a handler whose last call wrote to the database. -/
def afterWrite (url : Bytes) : Option GoError → Prog Response
  | some err => pure (internalServerError err)
  | none => pure (.redirect url)

/-! ### Listings -/

/-- The loop over the notes of a listing, with `m` elements still to read. -/
def renderNotes (toHtml : Note → Option HtmlNote) (notes : Slice) :
    ℕ → List HtmlNote → Prog (List HtmlNote)
  | 0, htmlNotes => pure htmlNotes
  | m + 1, htmlNotes => do
    let n ← Prog.index notes (notes.len - (m + 1))
    match toHtml n with
    | none => Prog.hang
    | some h => renderNotes toHtml notes m (htmlNotes ++ [h])

/-- What the two listing handlers do with what was loaded. -/
def listing (toHtml : Note → Option HtmlNote) (filtered : Bool) :
    Slice × Option GoError → Prog Response
  | (_, some err) => pure (internalServerError err)
  | (notes, none) => do
    let htmlNotes ← renderNotes toHtml notes notes.len []
    executePage ⟨ascii "index.html", .htmlTable ⟨htmlNotes, filtered⟩⟩

def indexHandler (toHtml : Note → Option HtmlNote) : Prog Response := do
  let loaded ← Prog.loadNotes
  listing toHtml false loaded

def filteredIndexHandler (toHtml : Note → Option HtmlNote) (whereClause : SelectQuery)
    (whereParameters : List Bytes) : Prog Response := do
  let loaded ← Prog.loadNotesWhere whereClause whereParameters
  listing toHtml true loaded

/-- `"%"+filterInput+"%"`. -/
def likePattern (filterInput : Bytes) : Bytes := ascii "%" ++ filterInput ++ ascii "%"

def titleFilterHandler (toHtml : Note → Option HtmlNote) (filterInput : Bytes) : Prog Response :=
  filteredIndexHandler toHtml .selectNotesWhereTitleQS [likePattern filterInput]

def textFilterHandler (toHtml : Note → Option HtmlNote) (filterInput : Bytes) : Prog Response :=
  filteredIndexHandler toHtml .selectNotesWhereTextQS [likePattern filterInput]

def bothFilterHandler (toHtml : Note → Option HtmlNote) (filterInput : Bytes) : Prog Response :=
  filteredIndexHandler toHtml .selectNotesWhereBothQS
    [likePattern filterInput, likePattern filterInput]

/-! ### Adding and showing a note -/

def addNoteHandler : Prog Response := do
  let token ← Prog.generateSynchronizedToken
  executePage ⟨ascii "AddNote.html", .addNoteData token⟩

/-- `note.New(title, text)`. -/
def newNote (title text : Bytes) : Prog Note := do
  let addDate ← Prog.now
  let changeDate ← Prog.now
  pure (Note.new title text addDate changeDate)

def newNoteHandler (form : Form) : Prog Response :=
  checkToken form (ascii "Token was invlaid.") do
    let n ← newNote (formValue form (ascii "title")) (formValue form (ascii "text"))
    let err ← Prog.addNote n
    afterWrite (ascii "/") err

def noteDetailsHandler (toHtml : Note → Option HtmlNote) (noteID : ℤ) : Prog Response := do
  let found ← Prog.getNote noteID
  match found with
  | .error err => pure (internalServerError err)
  | .ok foundNote =>
    match toHtml foundNote with
    | none => Prog.hang
    | some h => executePage ⟨ascii "Note.html", .htmlNote h⟩

def preparePostHandler (urlName : Bytes) (noteID : ℤ) : Prog Response := do
  let found ← Prog.getNote noteID
  match found with
  | .error err => pure (internalServerError err)
  | .ok foundNote => do
    let token ← Prog.generateSynchronizedToken
    executePage ⟨urlName ++ ascii ".html", .confirmNoteData foundNote token⟩

/-! ### Changing and removing a note -/

/-- Set the title if it differs; the flag is `dirtyBit` afterwards. -/
def saveTitle (foundNote : Note) (title : Bytes) : Prog (Bool × Note) :=
  if foundNote.title ≠ title then do
    let now ← Prog.now
    pure (true, foundNote.setTitle title now)
  else pure (false, foundNote)

/-- Set the text if it differs. -/
def saveText (text : Bytes) : Bool × Note → Prog (Bool × Note)
  | (dirtyBit, foundNote) =>
    if foundNote.text ≠ text then do
      let now ← Prog.now
      pure (true, foundNote.setText text now)
    else pure (dirtyBit, foundNote)

/-- `"/Note/%d"`. -/
def notePath (noteID : ℤ) : Bytes := ascii "/Note/" ++ itoa noteID

/-- Write the note if anything was set. -/
def saveIfDirty (noteID : ℤ) : Bool × Note → Prog Response
  | (true, foundNote) => do
    let err ← Prog.updateNote foundNote
    afterWrite (notePath noteID) err
  | (false, _) => pure (.redirect (notePath noteID))

def saveNoteHandler (form : Form) (noteID : ℤ) : Prog Response := do
  let found ← Prog.getNote noteID
  match found with
  | .error err => pure (internalServerError err)
  | .ok foundNote =>
    checkToken form (ascii "Token was invlaid.") do
      let titled ← saveTitle foundNote (formValue form (ascii "title"))
      let saved ← saveText (formValue form (ascii "text")) titled
      saveIfDirty noteID saved

def deleteNoteHandler (form : Form) (noteID : ℤ) : Prog Response :=
  checkToken form (ascii "Token was invlaid.") do
    let err ← Prog.deleteNote noteID
    afterWrite (ascii "/") err

/-- The arguments of curl. -/
def curlArgs (foundNote : Note) : List Bytes :=
  [ascii "-s",
    ascii "-F", ascii "content=" ++ foundNote.text,
    ascii "-F", ascii "title=\"" ++ foundNote.title ++ ascii " (ID:" ++ itoa foundNote.noteID ++
      ascii ")\"",
    ascii "http://dpaste.com/api/v2/"]

def pasteBinNoteHandler (form : Form) (noteID : ℤ) : Prog Response :=
  checkToken form (ascii "Invalid post request..") do
    let found ← Prog.getNote noteID
    match found with
    | .error err => pure (internalServerError err)
    | .ok foundNote => do
      let output ← Prog.runCurl (curlArgs foundNote)
      match output with
      | .error err => pure (internalServerError err)
      | .ok output => pure (.redirect output)

end ShareNotes.Handlers
