import ShareNotes.EditForms
import ShareNotes.PastedNotes
import ShareNotes.Templates

/-!
# What the pages show

The items that a browser finds on each page: the links and where they lead, the controls
of the form and what they hold, and the titles and texts that are shown. Titles and dates
can be any strings, they never add an item; the text of an `htmlNote` is what it is read as
(`ReadsAs`). The elements `title`, `textarea` and `script` hold no `<`, so their
contents are read like those of any other.
-/

namespace ShareNotes.PageItems

open ShareNotes.Lib.Decimal ShareNotes.Lib.HtmlForm ShareNotes.Lib.HtmlTokens
open ShareNotes.Lib.HtmlReading ShareNotes.Lib.FormControls ShareNotes.Lib.Hypertext
open ShareNotes.Token ShareNotes.NoteRecord ShareNotes.Linkify ShareNotes.Calls
open ShareNotes.Templates ShareNotes.FormPages ShareNotes.EditForms

/-! ### Parts of pages -/

/-- A string as a page shows it. -/
def displayed (s : Bytes) : Bytes := replaceZero (lineFeeds s)

/-- In the path of a link, and in that of a form. -/
def inLink (path : Bytes) : State :=
  .place (.value ⟨false, ascii "a", []⟩ (ascii "href") (some 34) path)

def inForm (path : Bytes) : State :=
  .place (.value ⟨false, ascii "form", []⟩ (ascii "action") (some 34) path)

/-- Behind the start tag of an element. -/
def inside (t : Tag) : Reader := some (t, [])

def boldTag : Tag := ⟨false, ascii "b", []⟩

def preTag : Tag := ⟨false, ascii "pre", []⟩

def areaTag : Tag :=
  ⟨false, ascii "textarea", [(ascii "name", ascii "text"), (ascii "rows", ascii "20"),
    (ascii "cols", ascii "80"), (ascii "placeholder", ascii "Text")]⟩

def inputTag : Tag := ⟨false, ascii "input", []⟩

theorem itoa_plain (n : ℤ) : ∀ b ∈ itoa n, b ≠ 0 ∧ b ≠ 10 ∧ b ≠ 13 := by
  intro b hb
  refine ⟨?_, ?_, ?_⟩ <;> rintro rfl <;>
    exact absurd hb (PastedNotes.not_mem_itoa (by decide) (by decide) n)

/-- A title, or anything else that stands outside of the elements that are collected. -/
theorem shows_unseen (s : Bytes) : Shows .start (Node.escaped s).write []
    ⟨returnAfter false (rcdataEscaper s), .place .data, none⟩ :=
  shows_escaped false none s

/-- The text of an element. -/
theorem shows_inside (t : Tag) (s : Bytes) :
    Shows ⟨false, .place .data, inside t⟩ (Node.escaped s).write []
      ⟨returnAfter false (rcdataEscaper s), .place .data, some (t, displayed s)⟩ :=
  shows_escaped false (inside t) s

theorem shows_linkNumber (path : Bytes) (n : ℤ) :
    Shows ⟨false, inLink path, none⟩ (Node.escaped (itoa n)).write []
      ⟨returnAfter false (rcdataEscaper (itoa n)), inLink (path ++ itoa n), none⟩ :=
  shows_quoted (itoa_plain n) _ _ path none

theorem shows_formNumber (path : Bytes) (n : ℤ) :
    Shows ⟨false, inForm path, none⟩ (Node.escaped (itoa n)).write []
      ⟨returnAfter false (rcdataEscaper (itoa n)), inForm (path ++ itoa n), none⟩ :=
  shows_quoted (itoa_plain n) _ _ path none

theorem shows_boldEnd (f : Bool) (s : Bytes) :
    Shows ⟨f, .place .data, some (boldTag, s)⟩ (Node.text (ascii "</b>")).write
      [.shown (ascii "b") s] .start :=
  shows_of_feed (by cases f <;> rfl)

theorem shows_areaEnd (f : Bool) (s : Bytes) :
    Shows ⟨f, .place .data, some (areaTag, s)⟩ (Node.text (ascii "</textarea>")).write
      [.control (ascii "text") (dropLineFeed s)] .start :=
  shows_of_feed (by cases f <;> rfl)

/-- The rest of the tag of a link, behind its path. -/
theorem shows_linkEnd {s : Bytes}
    (h : (restOfTag 34 (ascii "a") (ascii "href") s).isSome = true) (f : Bool) (path : Bytes) :
    Shows ⟨f, inLink path, none⟩ (Node.text s).write [.link path] .start := by
  obtain ⟨as, has⟩ := Option.isSome_iff_exists.mp h
  exact shows_tagEnd has (by decide) (by decide) rfl f

theorem shows_formEnd {s : Bytes}
    (h : (restOfTag 34 (ascii "form") (ascii "action") s).isSome = true) (f : Bool) (path : Bytes) :
    Shows ⟨f, inForm path, none⟩ (Node.text s).write [.form path] .start := by
  obtain ⟨as, has⟩ := Option.isSome_iff_exists.mp h
  exact shows_tagEnd has (by decide) (by decide) rfl f

/-- The rest of the tag of a hidden control, behind its value. -/
theorem shows_hiddenEnd {s name value : Bytes} (hvalue : Carried value)
    (h : restOfTag 32 (ascii "input") (ascii "value") s = some [(ascii "name", name)]) :
    Shows ⟨false, .place (.value inputTag (ascii "value") none value), none⟩
      (Node.text s).write [.control name value] .start := by
  have hkept : withoutBreaks value = value :=
    withoutBreaks_eq_self fun b hb => (hvalue.plain b hb).2
  have hst : State.step (.place (.value inputTag (ascii "value") none value)) 32 =
      (.beforeAttributeName ⟨false, ascii "input", [(ascii "value", value)]⟩, []) := rfl
  have hend := shows_tagEnd h (by decide) (by decide) hst false
  have hitem : tagItem ⟨false, ascii "input", [(ascii "value", value), (ascii "name", name)]⟩ =
      [.control name (withoutBreaks value)] := rfl
  rw [hitem, hkept] at hend
  exact hend

/-! ### Common nodes -/

theorem shows_headStart : Shows .start (Node.text headStart).write [] .start :=
  shows_text [] (.place .data) none (by decide +kernel)

/-- The characters of a long text are put in before the browser is run on it: the kernel is
slow to decode a string. -/
theorem shows_assets : Shows .start (Node.text assets).write [] .start := by
  refine shows_text [] (.place .data) none ?_
  simp only [assets, joined, ascii, List.map_cons, List.map_nil]
  repeat rw [String.toList_ofList]
  decide +kernel

theorem shows_bodyStart : Shows .start (Node.text bodyStart).write [] .start :=
  shows_text [] (.place .data) none (by decide +kernel)

theorem shows_formFoot : Shows .start (Node.text formFoot).write [] .start :=
  shows_text [] (.place .data) none (by decide +kernel)

/-- The hidden controls. -/
def tokenItems (token : SynchronizedToken) : List Item :=
  [.control (ascii "share_note_token_id") (formatDecimal token.id.toNat),
    .control (ascii "share_note_token_string") token.tokenString]

theorem shows_hidden {value : Bytes} (hvalue : Carried value) :
    Shows ⟨false, .beforeAttributeValue inputTag (ascii "value"), none⟩ (Node.nospace value).write
      [] ⟨false, .place (.value inputTag (ascii "value") none value), none⟩ :=
  shows_nospace hvalue.ne_nil (fun h => (hvalue.plain 0 h).1 rfl) _ _ none

theorem shows_tokenNodes {token : SynchronizedToken} (htoken : Carried token.tokenString) :
    Shows .start (execute (tokenNodes token)) (tokenItems token) .start := by
  have hid := carried_formatDecimal token.id.toNat
  exact (shows_text [] (.beforeAttributeValue inputTag (ascii "value")) none
      (by decide +kernel)).node <|
    (shows_hidden hid).node <|
    (shows_hiddenEnd hid (by decide +kernel)).node <|
    (shows_text [] (.beforeAttributeValue inputTag (ascii "value")) none
      (by decide +kernel)).node <|
    (shows_hidden htoken).node <|
    (shows_hiddenEnd htoken (by decide +kernel)).node <|
    (shows_text [] (.place .data) none (by decide +kernel)).node <| shows_nil _

/-! ### Adding a note -/

def addNoteItems (token : SynchronizedToken) : List Item :=
  [.form (ascii "/NewNote/")] ++ tokenItems token ++
    [.control (ascii "title") [], .control (ascii "text") [], .link (ascii "/"), .formEnd]

theorem view_addNoteHtml {token : SynchronizedToken} (htoken : Carried token.tokenString) :
    view (execute (addNoteHtml token)) = addNoteItems token := by
  refine view_of_shows (Shows.nodes (Shows.nodes ?_ (shows_tokenNodes htoken)) ?_)
  · exact shows_headStart.node <|
      (shows_text [] (.place .data) none (by decide +kernel)).node <|
      shows_assets.node <|
      shows_bodyStart.node <|
      (shows_text [.form (ascii "/NewNote/")] (.place .data) none (by decide +kernel)).node <|
      shows_nil _
  · exact (shows_text [.control (ascii "title") [], .control (ascii "text") [], .link (ascii "/"),
      .formEnd] (.place .data) none (by decide +kernel)).node <|
      shows_formFoot.node <| shows_nil _

/-! ### Showing a note -/

/-- The HTML is read as these links and this text, where it stands in the templates. -/
def ReadsAs (html : Bytes) (hrefs : List Bytes) (text : Bytes) : Prop :=
  Shows ⟨false, .place .data, inside preTag⟩ (html ++ ascii "</pre>")
    (hrefs.map .link ++ [.shown (ascii "pre") text]) .start

/-- A path of a note. -/
def pathOf (path : String) (noteID : ℤ) : Bytes := ascii path ++ itoa noteID

/-- What the text of a note is read as: its links, and its characters. -/
abbrev Row := List Bytes × Bytes

def noteItems (noteID : ℤ) (title : Bytes) (row : Row) : List Item :=
  [.shown (ascii "b") (displayed title)] ++ row.1.map .link ++
    [.shown (ascii "pre") row.2, .link (pathOf "/EditNote/" noteID),
      .link (pathOf "/PasteBinNote/" noteID), .link (pathOf "/DeleteNote/" noteID),
      .link (ascii "/"), .formEnd]

theorem view_noteHtml (formatTime : Time → Bytes) {note : HtmlNote} {row : Row}
    (htext : ReadsAs note.text row.1 row.2) :
    view (execute (noteHtml formatTime note)) = noteItems note.noteID note.title row := by
  have h : Shows .start (execute (noteHtml formatTime note)) _ .start :=
    shows_headStart.node <|
    (shows_unseen note.title).node <|
    (shows_textBehind [] (.place .data) none (by decide +kernel) _).node <|
    (shows_unseen (itoa note.noteID)).node <|
    (shows_textBehind [] (.place .data) none (by decide +kernel) _).node <|
    shows_assets.node <|
    shows_bodyStart.node <|
    (shows_text [] (.place .data) (inside boldTag) (by decide +kernel)).node <|
    (shows_inside boldTag note.title).node <|
    (shows_boldEnd _ (displayed note.title)).node <|
    (shows_text [] (.place .data) none (by decide +kernel)).node <|
    (shows_unseen (itoa note.noteID)).node <|
    (shows_textBehind [] (.place .data) (inside preTag) (by decide +kernel) _).node <|
    Shows.twoNodes htext <|
    (shows_text [] (inLink (ascii "/EditNote/")) none (by decide +kernel)).node <|
    (shows_linkNumber _ note.noteID).node <|
    (shows_linkEnd (by decide +kernel) _ (pathOf "/EditNote/" note.noteID)).node <|
    (shows_text [] (inLink (ascii "/PasteBinNote/")) none (by decide +kernel)).node <|
    (shows_linkNumber _ note.noteID).node <|
    (shows_linkEnd (by decide +kernel) _ (pathOf "/PasteBinNote/" note.noteID)).node <|
    (shows_text [] (inLink (ascii "/DeleteNote/")) none (by decide +kernel)).node <|
    (shows_linkNumber _ note.noteID).node <|
    (shows_linkEnd (by decide +kernel) _ (pathOf "/DeleteNote/" note.noteID)).node <|
    (shows_text [.link (ascii "/"), .formEnd] (.place .data) none (by decide +kernel)).node <|
    (shows_unseen (formatTime note.changeDate)).node <|
    (shows_textBehind [] (.place .data) none (by decide +kernel) _).node <|
    (shows_unseen (formatTime note.addDate)).node <|
    (shows_textBehind [] (.place .data) none (by decide +kernel) _).node <| shows_nil _
  rw [view_of_shows h, noteItems]
  simp only [List.nil_append, List.append_assoc, List.cons_append, List.append_nil]

/-! ### Editing a note -/

def editNoteItems (note : Note) (token : SynchronizedToken) (title : Bytes) : List Item :=
  [.form (pathOf "/SaveNote/" note.noteID)] ++ tokenItems token ++
    [.control (ascii "title") title,
      .control (ascii "text") (dropLineFeed (displayed note.text)),
      .link (pathOf "/Note/" note.noteID), .formEnd]

/-- The title in its text input is the one of the note, line breaks apart, unless there is a
zero byte in it. -/
theorem view_editNoteHtml (note : Note) {token : SynchronizedToken}
    (htoken : Carried token.tokenString) : ∃ title, (0 ∉ note.title →
      title = withoutBreaks note.title) ∧
      view (execute (editNoteHtml note token)) = editNoteItems note token title := by
  obtain ⟨v, hv, htitle⟩ :=
    shows_nospaceEnd note.title (t := titleTag) rfl (by decide) (ascii "value")
  refine ⟨withoutBreaks v, fun hzero => by rw [hv hzero],
    view_of_shows (Shows.nodes (Shows.nodes ?_ (shows_tokenNodes htoken)) ?_)⟩
  · exact shows_headStart.node <|
      (shows_text [] (.place .data) none (by decide +kernel)).node <|
      (shows_unseen note.title).node <|
      (shows_textBehind [] (.place .data) none (by decide +kernel) _).node <|
      (shows_unseen (itoa note.noteID)).node <|
      (shows_textBehind [] (.place .data) none (by decide +kernel) _).node <|
      shows_assets.node <|
      shows_bodyStart.node <|
      (shows_text [] (inForm (ascii "/SaveNote/")) none (by decide +kernel)).node <|
      (shows_formNumber _ note.noteID).node <|
      (shows_formEnd (by decide +kernel) _ (pathOf "/SaveNote/" note.noteID)).node <| shows_nil _
  · exact (shows_text [] (.beforeAttributeValue titleTag (ascii "value")) none
        (by decide +kernel)).node <|
      Shows.twoNodes htitle <|
      (shows_text [] (.place .data) none (by decide +kernel)).node <|
      (shows_unseen (itoa note.noteID)).node <|
      (shows_textBehind [] (.place .data) (inside areaTag) (by decide +kernel) _).node <|
      (shows_inside areaTag note.text).node <|
      (shows_areaEnd _ (displayed note.text)).node <|
      (shows_text [] (inLink (ascii "/Note/")) none (by decide +kernel)).node <|
      (shows_linkNumber _ note.noteID).node <|
      (shows_linkEnd (by decide +kernel) _ (pathOf "/Note/" note.noteID)).node <|
      (shows_text [.formEnd] (.place .data) none (by decide +kernel)).node <|
      shows_formFoot.node <| shows_nil _

/-! ### Asking before something is done -/

def confirmItems (path : String) (note : Note) (token : SynchronizedToken) : List Item :=
  [.shown (ascii "b") (displayed note.title), .form (pathOf path note.noteID)] ++
    tokenItems token ++ [.link (ascii "/"), .formEnd]

theorem shows_confirmNodes {question : Bytes} {path : String}
    (hquestion : feed .start question = (.start, []))
    (hpath : feed ⟨false, inForm [], none⟩ (ascii path) = (⟨false, inForm (ascii path), none⟩, []))
    (note : Note) {token : SynchronizedToken} (htoken : Carried token.tokenString) :
    Shows .start (execute (confirmNodes question (ascii path) note token))
      ([.shown (ascii "b") (displayed note.title), .form (pathOf path note.noteID)] ++
        tokenItems token) .start := by
  refine Shows.nodes ?_ (shows_tokenNodes htoken)
  exact shows_headStart.node <|
    (shows_text [] (.place .data) none hquestion).node <|
    (shows_unseen note.title).node <|
    (shows_textBehind [] (.place .data) none (by decide +kernel) _).node <|
    (shows_unseen (itoa note.noteID)).node <|
    (shows_textBehind [] (.place .data) none (by decide +kernel) _).node <|
    shows_assets.node <|
    shows_bodyStart.node <|
    (shows_text [] (.place .data) none (by decide +kernel)).node <|
    (shows_text [] (.place .data) none hquestion).node <|
    (shows_text [] (.place .data) (inside boldTag) (by decide +kernel)).node <|
    (shows_inside boldTag note.title).node <|
    (shows_boldEnd _ (displayed note.title)).node <|
    (shows_text [] (.place .data) none (by decide +kernel)).node <|
    (shows_unseen (itoa note.noteID)).node <|
    (shows_textBehind [] (inForm []) none (by decide +kernel) _).node <|
    (shows_text [] (inForm (ascii path)) none hpath).node <|
    (shows_formNumber _ note.noteID).node <|
    (shows_formEnd (by decide +kernel) _ (pathOf path note.noteID)).node <| shows_nil _

theorem view_deleteNoteHtml (note : Note) {token : SynchronizedToken}
    (htoken : Carried token.tokenString) : view (execute (deleteNoteHtml note token)) =
      confirmItems "/ConfirmDeleteNote/" note token := by
  refine view_of_shows (Shows.nodes (shows_confirmNodes (by decide +kernel) (by decide +kernel)
    note htoken) ?_)
  exact (shows_text [.link (ascii "/"), .formEnd] (.place .data) none (by decide +kernel)).node <|
    shows_formFoot.node <| shows_nil _

theorem view_pasteBinNoteHtml (note : Note) {token : SynchronizedToken}
    (htoken : Carried token.tokenString) : view (execute (pasteBinNoteHtml note token)) =
      confirmItems "/ConfirmPasteBinNote/" note token := by
  refine view_of_shows (Shows.nodes (shows_confirmNodes (by decide +kernel) (by decide +kernel)
    note htoken) ?_)
  exact (shows_text [.link (ascii "/"), .formEnd] (.place .data) none (by decide +kernel)).node <|
    shows_formFoot.node <| shows_nil _

/-! ### Listing notes -/

def rowItems (noteID : ℤ) (title : Bytes) (row : Row) : List Item :=
  [.link (pathOf "/Note/" noteID), .link (pathOf "/PasteBinNote/" noteID),
    .link (pathOf "/DeleteNote/" noteID), .shown (ascii "b") (displayed title)] ++
    row.1.map .link ++ [.shown (ascii "pre") row.2]

theorem shows_indexRow {note : HtmlNote} {row : Row} (htext : ReadsAs note.text row.1 row.2) :
    Shows .start (execute (indexRow note)) (rowItems note.noteID note.title row) .start := by
  have h : Shows .start (execute (indexRow note)) _ .start :=
    (shows_text [] (inLink (ascii "/Note/")) none (by decide +kernel)).node <|
    (shows_linkNumber _ note.noteID).node <|
    (shows_linkEnd (by decide +kernel) _ (pathOf "/Note/" note.noteID)).node <|
    (shows_text [] (inLink (ascii "/PasteBinNote/")) none (by decide +kernel)).node <|
    (shows_linkNumber _ note.noteID).node <|
    (shows_linkEnd (by decide +kernel) _ (pathOf "/PasteBinNote/" note.noteID)).node <|
    (shows_text [] (inLink (ascii "/DeleteNote/")) none (by decide +kernel)).node <|
    (shows_linkNumber _ note.noteID).node <|
    (shows_linkEnd (by decide +kernel) _ (pathOf "/DeleteNote/" note.noteID)).node <|
    (shows_text [] (.place .data) (inside boldTag) (by decide +kernel)).node <|
    (shows_inside boldTag note.title).node <|
    (shows_boldEnd _ (displayed note.title)).node <|
    (shows_text [] (.place .data) (inside preTag) (by decide +kernel)).node <|
    Shows.twoNodes htext <|
    (shows_text [] (.place .data) none (by decide +kernel)).node <| shows_nil _
  simpa only [rowItems, List.nil_append, List.append_assoc, List.cons_append, List.append_nil]
    using h

/-- The rows of notes, of which these are the numbers and titles. -/
def rowsItems (notes : List (ℤ × Bytes)) (rows : List Row) : List Item :=
  (List.zipWith (fun note row => rowItems note.1 note.2 row) notes rows).flatten

def numberAndTitle (note : HtmlNote) : ℤ × Bytes := (note.noteID, note.title)

theorem shows_rows {notes : List HtmlNote} {rows : List Row}
    (hrows : List.Forall₂ (fun note row => ReadsAs note.text row.1 row.2) notes rows) :
    Shows .start (execute (notes.flatMap indexRow)) (rowsItems (notes.map numberAndTitle) rows)
      .start := by
  induction hrows with
  | nil => exact shows_nil _
  | cons hrow _ ih =>
    rw [List.flatMap_cons]
    exact (shows_indexRow hrow).nodes ih

theorem shows_rowNodes {notes : List HtmlNote} {rows : List Row}
    (hrows : List.Forall₂ (fun note row => ReadsAs note.text row.1 row.2) notes rows) :
    Shows .start (execute (rowNodes notes)) (rowsItems (notes.map numberAndTitle) rows) .start := by
  rw [rowNodes]
  split
  · rename_i hnil
    subst hnil
    exact (shows_text [] (.place .data) none (by decide +kernel)).node <| shows_nil _
  · exact shows_rows hrows

/-- What stands above the notes. -/
def menuLinks : List Item :=
  [.link (ascii "/AddNote/"), .link (ascii "#"), .link (ascii "#"), .link (ascii "#"),
    .control (ascii "FilterText") []]

theorem shows_menu : Shows .start (Node.text menu).write menuLinks .start := by
  refine shows_text menuLinks (.place .data) none ?_
  simp only [menu, joined, ascii, List.map_cons, List.map_nil]
  repeat rw [String.toList_ofList]
  decide +kernel

theorem shows_filterNodes (filtered : Bool) : Shows .start (execute (filterNodes filtered))
    (if filtered then [.link (ascii "/")] else []) .start := by
  have hend : Shows .start (Node.text menuEnd).write [] .start :=
    shows_text [] (.place .data) none (by decide +kernel)
  cases filtered with
  | false => exact hend.node <| shows_nil _
  | true =>
    exact (shows_text [.link (ascii "/")] (.place .data) none (by decide +kernel)).node <|
      hend.node <| shows_nil _

def menuItems (filtered : Bool) : List Item :=
  menuLinks ++ if filtered then [.link (ascii "/")] else []

def indexItems (filtered : Bool) (notes : List (ℤ × Bytes)) (rows : List Row) : List Item :=
  menuItems filtered ++ rowsItems notes rows ++
    [.link (ascii "https://github.com/Ryoga-Unryu/sharenotes")]

/-- **The index shows** its menu, and each note with its links, title and text. -/
theorem view_indexHtml {table : HtmlTable} {rows : List Row}
    (hrows : List.Forall₂ (fun note row => ReadsAs note.text row.1 row.2) table.notes rows) :
    view (execute (indexHtml table)) =
      indexItems table.filtered (table.notes.map numberAndTitle) rows := by
  refine view_of_shows (Shows.nodes (Shows.nodes (Shows.nodes ?_ (shows_filterNodes table.filtered))
    (shows_rowNodes hrows)) ?_)
  · exact shows_headStart.node <|
      (shows_text [] (.place .data) none (by decide +kernel)).node <|
      shows_assets.node <|
      (shows_text [] (.place .data) none (by decide +kernel)).node <|
      shows_bodyStart.node <|
      (shows_text [] (.place .data) none (by decide +kernel)).node <|
      (shows_plain (by decide +kernel)).node <|
      (shows_text [] (.place .data) none (by decide +kernel)).node <|
      shows_menu.node <| shows_nil _
  · exact (shows_text [.link (ascii "https://github.com/Ryoga-Unryu/sharenotes")] (.place .data)
      none (by decide +kernel)).node <| shows_nil _

/-! ### Any page -/

/-- The items that a browser finds on a page. -/
def pageItems (formatTime : Time → Bytes) (page : Page) : List Item :=
  (pageHtml formatTime page).elim [] fun nodes => view (execute nodes)

theorem pageItems_eq {formatTime : Time → Bytes} {page : Page} {nodes : List Node}
    (hpage : pageHtml formatTime page = some nodes) :
    pageItems formatTime page = view (execute nodes) := by
  rw [pageItems, hpage, Option.elim_some]

end ShareNotes.PageItems
