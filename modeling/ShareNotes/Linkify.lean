import ShareNotes.NoteRecord

/-!
# Turning a note into HTML

`partialHtmlParser` copies the text byte by byte and wraps the links that the
pattern `xurls.Relaxed` found in it. The pattern is the parameter
`findAllString`. The loop runs until its list of links is empty and nothing
bounds it, so the model gives it `fuel` and returns `none` when it runs out.
-/

namespace ShareNotes.Linkify

open ShareNotes.Lib.Decimal ShareNotes.NoteRecord

/-- `strings.Contains(s, sub)`. -/
def contains (s sub : Bytes) : Bool := s.tails.any fun t => sub.isPrefixOf t

/-- The schemes that a link is tested for. -/
def linkSchemes : List Bytes :=
  [ascii "http://", ascii "https://", ascii "bitcoin://", ascii "file://", ascii "magnet://",
    ascii "mailto://", ascii "sms://", ascii "tel://", ascii "smp://"]

/-- The anchor written for a link. -/
def anchor (currentLink : Bytes) : Bytes :=
  if linkSchemes.any fun scheme => contains currentLink scheme then
    ascii "<a href=" ++ currentLink ++ ascii " target=_new>" ++ currentLink ++ ascii "</a>"
  else
    ascii "<a href=http://" ++ currentLink ++ ascii " target=_new>" ++ currentLink ++ ascii "</a>"

/-- The variables of the loop. -/
structure LinkLoop where
  links : List Bytes
  currentLink : Bytes
  newText : Bytes
  restText : Bytes

/-- Wrap the current link when the rest of the text starts with it. -/
def LinkLoop.wrap (st : LinkLoop) : LinkLoop :=
  if st.currentLink.isPrefixOf st.restText then
    let st := { st with
      newText := st.newText ++ anchor st.currentLink,
      restText := st.restText.drop st.currentLink.length }
    match st.links with
    | _ :: link :: links => { st with links := link :: links, currentLink := link }
    | [link] => { st with currentLink := link, links := [] }
    | [] => st
  else st

/-- Copy one byte. -/
def LinkLoop.copy (st : LinkLoop) : LinkLoop :=
  match st.restText with
  | [] => st
  | b :: rest => { st with newText := st.newText ++ [b], restText := rest }

def linkLoop : ℕ → LinkLoop → Option LinkLoop
  | 0, st => if st.links = [] then some st else none
  | fuel + 1, st => if st.links = [] then some st else linkLoop fuel st.wrap.copy

/-- The HTML of a text; what is left of the text after the last link is not added. -/
def partialHtmlParser (findAllString : Bytes → List Bytes) (fuel : ℕ) (text : Bytes) :
    Option Bytes :=
  match findAllString text with
  | [] => some text
  | link :: links =>
    (linkLoop fuel ⟨link :: links, link, [], text⟩).map fun st => st.newText

structure HtmlNote where
  noteID : ℤ
  title : Bytes
  text : Bytes
  addDate : Time
  changeDate : Time
  deriving DecidableEq

def noteToHtmlNote (findAllString : Bytes → List Bytes) (fuel : ℕ) (note : Note) :
    Option HtmlNote :=
  (partialHtmlParser findAllString fuel note.text).map fun text =>
    ⟨note.noteID, note.title, text, note.addDate, note.changeDate⟩

end ShareNotes.Linkify
