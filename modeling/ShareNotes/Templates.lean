import ShareNotes.Lib.Hypertext
import ShareNotes.Calls

/-!
# The pages

The six templates, line by line, with the values that their actions insert. Strings are
escaped for the place where they stand, numbers hold nothing to escape, and the text of
an `htmlNote` is inserted as it is. How a date is written is left open.
-/

namespace ShareNotes.Templates

open ShareNotes.Lib.Decimal ShareNotes.Lib.Hypertext
open ShareNotes.Token ShareNotes.NoteRecord ShareNotes.Linkify ShareNotes.Calls

/-! ### The files -/

/-- Lines, with a line feed between two of them. -/
def joined (lines : List String) : Bytes := [10].intercalate (lines.map ascii)

def headStart : Bytes :=
  joined ["<!DOCTYPE html>", "<html lang=\"en\">", "<head>", "  <title>"]

/-- From the end of the title on. -/
def assets : Bytes :=
  joined ["</title>",
    "  <meta charset=\"utf-8\">",
    "  <meta name=\"viewport\" content=\"width=device-width, initial-scale=1\">",
    "  <link rel=\"stylesheet\" href=\"http://maxcdn.bootstrapcdn.com/bootstrap/3.3.5/css/bootstrap.min.css\">",
    "  <script src=\"https://ajax.googleapis.com/ajax/libs/jquery/1.11.3/jquery.min.js\"></script>",
    "  <script src=\"http://maxcdn.bootstrapcdn.com/bootstrap/3.3.5/js/bootstrap.min.js\"></script>",
    ""]

def bodyStart : Bytes := joined ["</head>", "<body>", ""]

def formFoot : Bytes := joined ["", "", "</body>", "</html>", ""]

/-- The end of the tag of a link or a form, behind its path. -/
def saveEnd : Bytes := ascii "\" method=\"POST\">"

def successEnd : Bytes := ascii "\" class=\"btn btn-success btn-md\" role=\"button\" target=\"_top\">"

def warningEnd : Bytes := ascii "\" class=\"btn btn-warning btn-md\" role=\"button\" target=\"_blank\">"

def dangerEnd : Bytes := ascii "\" class=\"btn btn-danger btn-md\" role=\"button\" target=\"_top\">"

def defaultEnd : Bytes := ascii "\" class=\"btn btn-default btn-md\" role=\"button\" target=\"_top\">"

def smallEnd : Bytes :=
  ascii "\" class=\"btn btn-default btn-xs\" role=\"button\" style=\"width:30%\" target=\"_top\">"

def smallWarningEnd : Bytes :=
  ascii "\" class=\"btn btn-warning btn-xs\" role=\"button\" style=\"width:31%\" target=\"_blank\">"

def smallDangerEnd : Bytes :=
  ascii "\" class=\"btn btn-danger btn-xs\" role=\"button\" style=\"width:30%\" target=\"_top\">"

/-- The hidden controls of a form. -/
def tokenNodes (token : SynchronizedToken) : List Node :=
  [.text (joined ["", "    <div hidden><input value="]),
    .nospace (formatDecimal token.id.toNat),
    .text (ascii " name=\"share_note_token_id\">"),
    .text (joined ["</input></div>", "    <div hidden><input value="]),
    .nospace token.tokenString,
    .text (ascii " name=\"share_note_token_string\">"), .text (joined ["</input></div>", ""])]

/-- `AddNote.html` -/
def addNoteHtml (token : SynchronizedToken) : List Node :=
  ([.text headStart, .text (ascii "Add Note"), .text assets, .text bodyStart,
    .text (ascii "<form action=\"/NewNote/\" method=\"POST\">")] : List Node) ++ tokenNodes token ++
  ([.text (joined [
    "    <h1><input name=\"title\" rows=\"1\" cols=\"50\" placeholder=\"Title\"></input> Add Note</h1>",
    "    <div><textarea name=\"text\" rows=\"20\" cols=\"80\" placeholder=\"Text\"></textarea></div>",
    "    <div>",
    "      <input type=\"submit\" value=\"Add\" class=\"btn btn-success btn-md\" value=\"Submit Button\">",
    "      <a href=\"/\" class=\"btn btn-default btn-md\" role=\"button\" target=\"_top\">Cancel</a>",
    "    </div>",
    "</form>"]), .text formFoot] : List Node)

/-- `Note.html` -/
def noteHtml (formatTime : Time → Bytes) (note : HtmlNote) : List Node :=
  [.text headStart, .escaped note.title, .text (ascii " (ID: "), .escaped (itoa note.noteID),
    .text (ascii ")"), .text assets, .text bodyStart,
    .text (ascii "  <h1><b>"), .escaped note.title, .text (ascii "</b>"), .text (ascii " (ID: "),
    .escaped (itoa note.noteID), .text (joined [")</h1>", "  <pre>"]),
    .html note.text, .text (ascii "</pre>"),
    .text (joined ["", "  <div>", "      <a href=\"/EditNote/"]),
    .escaped (itoa note.noteID), .text successEnd,
    .text (joined ["Edit</a> ", "      <a href=\"/PasteBinNote/"]),
    .escaped (itoa note.noteID), .text warningEnd,
    .text (joined ["dPaste</a> ", "      <a href=\"/DeleteNote/"]),
    .escaped (itoa note.noteID), .text dangerEnd,
    .text (joined ["Delete</a> ",
      "      <a href=\"/\" class=\"btn btn-default btn-md\" role=\"button\" target=\"_top\">Back</a>",
      "  </div>", "</form>", "", " <footer>", "  <small>", "    <div>Last Changed: "]),
    .escaped (formatTime note.changeDate),
    .text (joined ["</div>", "    <div>Created: "]), .escaped (formatTime note.addDate),
    .text (joined ["</div>", "  </small>", "</footer> ", "", "</body>", "</html>", ""])]

/-- `EditNote.html` -/
def editNoteHtml (note : Note) (token : SynchronizedToken) : List Node :=
  ([.text headStart, .text (ascii "Edit "), .escaped note.title, .text (ascii " (ID: "),
    .escaped (itoa note.noteID), .text (ascii ")"), .text assets, .text bodyStart,
    .text (ascii "<form action=\"/SaveNote/"), .escaped (itoa note.noteID), .text saveEnd] : List Node) ++
  tokenNodes token ++
  ([.text (ascii "    <h1><input name=\"title\" rows=\"1\" cols=\"50\" placeholder=\"Title\" value="),
    .nospace note.title, .text (ascii ">"), .text (ascii "(ID: "), .escaped (itoa note.noteID),
    .text (joined [")</h1>",
      "    <div><textarea name=\"text\" rows=\"20\" cols=\"80\" placeholder=\"Text\">"]),
    .escaped note.text, .text (ascii "</textarea>"),
    .text (joined ["</div>", "    <div>",
      "        <input type=\"submit\" value=\"Save\" class=\"btn btn-success btn-md\" value=\"Submit Button\"> ",
      "        <a href=\"/Note/"]),
    .escaped (itoa note.noteID), .text defaultEnd,
    .text (joined ["Cancel</a>", "    </div>", "</form>"]), .text formFoot] : List Node)

/-- A page that asks whether to go on, up to its form. -/
def confirmNodes (question action : Bytes) (note : Note) (token : SynchronizedToken) : List Node :=
  ([.text headStart, .text question, .escaped note.title, .text (ascii " (ID: "),
    .escaped (itoa note.noteID), .text (ascii ")?"), .text assets, .text bodyStart,
    .text (ascii "<h1>"), .text question, .text (ascii "<b>"), .escaped note.title,
    .text (ascii "</b>"), .text (ascii " (ID: "), .escaped (itoa note.noteID),
    .text (joined [")?</h1>", "", "<form action=\""]), .text action,
    .escaped (itoa note.noteID), .text saveEnd] : List Node) ++ tokenNodes token

/-- `DeleteNote.html` -/
def deleteNoteHtml (note : Note) (token : SynchronizedToken) : List Node :=
  confirmNodes (ascii "Really delete ") (ascii "/ConfirmDeleteNote/") note token ++
  ([.text (joined ["    <div>",
    "      <input type=\"submit\" value=\"Delete\" class=\"btn btn-danger btn-md\" value=\"Submit Button\">",
    "      <a href=\"/\" class=\"btn btn-default btn-md\" role=\"button\" target=\"_top\">Cancel</a>",
    "    </div>", "</form>"]), .text formFoot] : List Node)

/-- `PasteBinNote.html` -/
def pasteBinNoteHtml (note : Note) (token : SynchronizedToken) : List Node :=
  confirmNodes (ascii "Really create a \"dPaste\" of ") (ascii "/ConfirmPasteBinNote/") note token ++
  ([.text (joined ["    <div>",
    "      <input type=\"submit\" value=\"Paste\" class=\"btn btn-warning btn-md\" value=\"Submit Button\"> ",
    "      <a href=\"/\" class=\"btn btn-default btn-md\" role=\"button\" target=\"_top\">Cancel</a>",
    "    </div>", "</form>"]), .text formFoot] : List Node)

def filterScript : Bytes :=
  joined ["",
    "  function titleFilter() \x7b",
    "    \"use strict\";",
    "    var filterText = document.getElementById(\"sharenotes_filter_text_input_field\").value;",
    "    ",
    "    if(filterText == \"\")",
    "    \x7b",
    "      return;",
    "    \x7d",
    "      ",
    "    window.open(\"/TitleFilter/\" + filterText, \"_self\");",
    "  \x7d",
    "  ",
    "  function textFilter() \x7b",
    "    \"use strict\";",
    "    var filterText = document.getElementById(\"sharenotes_filter_text_input_field\").value;",
    "    ",
    "    if(filterText == \"\")",
    "    \x7b",
    "      return;",
    "    \x7d",
    "    ",
    "    window.open(\"/TextFilter/\" + filterText, \"_self\")",
    "  \x7d",
    "  ",
    "  function bothFilter() \x7b",
    "    \"use strict\";",
    "    var filterText = document.getElementById(\"sharenotes_filter_text_input_field\").value;",
    "    ",
    "    if(filterText == \"\")",
    "    \x7b",
    "      return;",
    "    \x7d",
    "    ",
    "    window.open(\"/BothFilter/\" + filterText, \"_self\")",
    "  \x7d",
    ""]

/-- The menu above the notes. -/
def menu : Bytes :=
  joined ["", "", "<div class=\"container\">", "  <div class=\"page-header\">", "    <h2>",
    "      ShareNotes", "    </h2>", "  </div>",
    "  <table class=\"table table-condensed table-striped table-hover\">", "    <tbody>", "        <tr>",
    "          <td class=\"col-md-1\">",
    "            <a href=\"/AddNote/\" class=\"btn btn-info btn-md\" role=\"button\" target=\"_top\">Add Note...</a>",
    "          </td>", "          <td>", "            <div class=\"dropdown\">",
    "              <button class=\"btn btn-default dropdown-toggle btn-md\" type=\"button\" data-toggle=\"dropdown\">Apply filter for...",
    "              <span class=\"caret\"></span></button>",
    "              <ul class=\"dropdown-menu\">",
    "                <li><a href=\"#\" onclick=\"titleFilter();\">Title</a></li>",
    "                <li><a href=\"#\" onclick=\"textFilter();\">Text</a></li>",
    "                <li><a href=\"#\" onclick=\"bothFilter();\">Both</a></li>",
    "              </ul>",
    "              <input name=\"FilterText\" id=\"sharenotes_filter_text_input_field\" rows=\"1\" cols=\"50\" placeholder=\"Filter...\">",
    "              "]

def cancelFilter : Bytes :=
  joined ["",
    "                <a href=\"/\" class=\"btn btn-default btn-md\" role=\"button\" target=\"_top\">Cancel</a>",
    "              "]

def menuEnd : Bytes := joined ["", "            </div>", "          </td>", "        </tr>", "        "]

/-- The row of a note. -/
def indexRow (note : HtmlNote) : List Node :=
  [.text (joined ["", "          <tr>", "            <td class=\"col-md-1\">",
      "              <a href=\"/Note/"]),
    .escaped (itoa note.noteID), .text smallEnd,
    .text (joined ["#</a>", "              <a href=\"/PasteBinNote/"]),
    .escaped (itoa note.noteID), .text smallWarningEnd,
    .text (joined ["P</a>", "              <a href=\"/DeleteNote/"]),
    .escaped (itoa note.noteID), .text smallDangerEnd,
    .text (joined ["D</a>", "            </td>", "            <td>", "              <div>",
      "                <b>"]),
    .escaped note.title, .text (ascii "</b>"),
    .text (joined ["", "              </div>", "              <pre>"]),
    .html note.text, .text (ascii "</pre>"),
    .text (joined ["", "            </td>", "          </tr>", "        "])]

/-- The row that stands where there are no notes. -/
def noNotes : Bytes :=
  joined [" ", "          <tr> ", "            <td>", "            </td>", "            <td>",
    "              No notes... ", "            </td>", "          </tr>", "        "]

def indexFoot : Bytes :=
  joined ["", "    </tbody>", "  </table>", "</div>", "", " <footer>", "  <small>",
    "    <div>(c)2016 <a href=\"https://github.com/Ryoga-Unryu/sharenotes\" target=\"_top\">ShareNotes Source</a></div>",
    "  </small>", "</footer> ", "", "</body>", "</html>", ""]

def filterNodes (filtered : Bool) : List Node :=
  if filtered then [.text cancelFilter, .text menuEnd] else [.text menuEnd]

def rowNodes (notes : List HtmlNote) : List Node :=
  if notes = [] then [.text noNotes] else notes.flatMap indexRow

/-- `index.html` -/
def indexHtml (table : HtmlTable) : List Node :=
  ([.text headStart, .text (ascii "ShareNotes"), .text assets, .text (joined ["  ", ""]),
    .text bodyStart, .text (joined ["", "<script>"]), .text filterScript, .text (ascii "</script>"),
    .text menu] : List Node) ++ filterNodes table.filtered ++ rowNodes table.notes ++
  ([.text indexFoot] : List Node)

/-- The page that a template makes of its data, if they fit. -/
def pageHtml (formatTime : Time → Bytes) (page : Page) : Option (List Node) :=
  match page.data with
  | .htmlTable table => if page.template = ascii "index.html" then some (indexHtml table) else none
  | .addNoteData token =>
    if page.template = ascii "AddNote.html" then some (addNoteHtml token) else none
  | .htmlNote note =>
    if page.template = ascii "Note.html" then some (noteHtml formatTime note) else none
  | .confirmNoteData note token =>
    if page.template = ascii "EditNote.html" then some (editNoteHtml note token)
    else if page.template = ascii "DeleteNote.html" then some (deleteNoteHtml note token)
    else if page.template = ascii "PasteBinNote.html" then some (pasteBinNoteHtml note token)
    else none

end ShareNotes.Templates
