import ShareNotes.AnchorMarkup
import ShareNotes.Availability
import ShareNotes.PageItems

/-!
# The notes that are served

What a browser finds on the index, on the page of a filter and on the page of a note. Texts
are those in which HTML means nothing: `<` and `&` are not in them, nor is the zero byte,
which a browser drops. Such a text is shown with its line breaks, up to one at the front
and up to the byte behind its last link, and each link leads to its target.

Two lists of pieces are involved, the one that `partialHtmlParser` writes and the one that
a browser reads: line breaks become line feeds, and no anchor has a line break in it.
-/

namespace ShareNotes.ServedNotes

open ShareNotes.Lib.Decimal ShareNotes.Lib.KeyedRows ShareNotes.Lib.Interaction
open ShareNotes.Lib.Slices ShareNotes.Lib.Placements ShareNotes.Lib.HtmlTokens
open ShareNotes.Lib.HtmlReading ShareNotes.Lib.FormControls ShareNotes.Lib.Hypertext
open ShareNotes.NoteRecord ShareNotes.Linkify ShareNotes.Manager ShareNotes.Calls
open ShareNotes.Handlers ShareNotes.Routing ShareNotes.Runs ShareNotes.HandlerRuns
open ShareNotes.SequentialNotes ShareNotes.FilterPages
open ShareNotes.LinkScan ShareNotes.LinkedText ShareNotes.AnchorMarkup
open ShareNotes.Templates ShareNotes.PageItems
open Program

/-! ### Line breaks between anchors -/

/-- The pieces with line feeds for the line breaks among their bytes. -/
def feedPieces : Bool → List Piece → List Piece
  | _, [] => []
  | afterReturn, .byte b :: ps =>
    if b = 13 then .byte 10 :: feedPieces true ps
    else if b = 10 ∧ afterReturn then feedPieces false ps
    else .byte b :: feedPieces false ps
  | _, .anchor link :: ps => .anchor link :: feedPieces false ps

theorem wrappedLinks_feedPieces (f : Bool) (ps : List Piece) :
    wrappedLinks (feedPieces f ps) = wrappedLinks ps := by
  induction ps generalizing f with
  | nil => rfl
  | cons p ps ih =>
    cases p with
    | byte b =>
      show _ = wrappedLinks ps
      rw [feedPieces]
      split
      · exact ih true
      · split
        · exact ih false
        · exact ih false
    | anchor link => exact congrArg (link :: ·) (ih false)

/-- Whatever is written for the pieces, if a byte is written as it is and what is written for
a link has no line break. -/
theorem lineFeedsFrom_pieces {g : Piece → Bytes} (hbyte : ∀ b, g (.byte b) = [b])
    {ps : List Piece} (hlinks : ∀ l ∈ wrappedLinks ps,
      g (.anchor l) ≠ [] ∧ ∀ b ∈ g (.anchor l), b ≠ 10 ∧ b ≠ 13) (f : Bool) :
    lineFeedsFrom f (ps.flatMap g) = (feedPieces f ps).flatMap g := by
  induction ps generalizing f with
  | nil => rfl
  | cons p ps ih =>
    rw [List.flatMap_cons]
    cases p with
    | byte b =>
      replace ih := ih hlinks
      rw [hbyte, List.singleton_append, lineFeedsFrom, feedPieces]
      split
      · rw [ih, List.flatMap_cons, hbyte]
        rfl
      · split
        · exact ih false
        · rw [ih, List.flatMap_cons, hbyte]
          rfl
    | anchor link =>
      have hall : ∀ l ∈ link :: wrappedLinks ps, _ := hlinks
      rw [List.forall_mem_cons] at hall
      rw [lineFeedsFrom_append hall.1.2 hall.1.1, ih hall.2, feedPieces, List.flatMap_cons]

/-- A link whose anchor has no line break in it. -/
structure OnOneLine (link : Bytes) : Prop where
  ne_nil : link ≠ []
  plain : ∀ b ∈ link, b ≠ 10 ∧ b ≠ 13

theorem html_eq (ps : List Piece) : html ps = ps.flatMap fun p => html [p] := by
  induction ps with
  | nil => rfl
  | cons p ps ih =>
    rw [List.flatMap_cons, ← ih]
    exact html_append [p] ps

theorem OnOneLine.anchor {link : Bytes} (h : OnOneLine link) :
    anchor link ≠ [] ∧ ∀ b ∈ anchor link, b ≠ 10 ∧ b ≠ 13 := by
  have htarget : ∀ b ∈ target link, b ≠ 10 ∧ b ≠ 13 := by
    rcases NoteMarkup.target_cases link with ht | ht <;> rw [ht]
    · exact h.plain
    · rw [List.forall_mem_append]
      exact ⟨by decide +kernel, h.plain⟩
  rw [anchor_eq, openTag]
  refine ⟨List.append_ne_nil_of_right_ne_nil _ (by decide), ?_⟩
  simp only [List.forall_mem_append]
  exact ⟨⟨⟨⟨by decide +kernel, htarget⟩, by decide +kernel⟩, h.plain⟩, by decide +kernel⟩

section Pieces

variable {ps : List Piece} (hlines : ∀ l ∈ wrappedLinks ps, OnOneLine l)

include hlines

theorem lineFeedsFrom_html (f : Bool) : lineFeedsFrom f (html ps) = html (feedPieces f ps) := by
  rw [html_eq, html_eq]
  refine lineFeedsFrom_pieces html_byte (fun l hl => ?_) f
  rw [html_anchor]
  exact (hlines l hl).anchor

theorem eraseMarkup_feedPieces (f : Bool) :
    eraseMarkup (feedPieces f ps) = lineFeedsFrom f (eraseMarkup ps) := by
  rw [eraseMarkup_eq, eraseMarkup_eq]
  exact (lineFeedsFrom_pieces (fun _ => rfl) (fun l hl => ⟨(hlines l hl).1, (hlines l hl).2⟩)
    f).symm

end Pieces

/-! ### What is read -/

/-- The links of the anchors among the tokens. -/
theorem innerItems_anchorTags (hrefs : List Bytes) :
    (hrefs.flatMap anchorTags).flatMap innerItems = hrefs.map .link := by
  induction hrefs with
  | nil => rfl
  | cons href hrefs ih =>
    rw [List.flatMap_cons, List.flatMap_append, ih]
    rfl

/-- Without ampersands the targets are read as they were written. -/
theorem hrefs_eq {links hrefs : List Bytes} (hplain : ∀ l ∈ links, ∀ b ∈ target l, b ≠ 38)
    (h : List.Forall₂ (fun l href => ReadAs (target l) href) links hrefs) :
    hrefs = links.map target := by
  induction h with
  | nil => rfl
  | cons hhead _ ih =>
    rw [List.forall_mem_cons] at hplain
    rw [List.map_cons, hhead.exact hplain.1, ih hplain.2]

theorem shows_preEnd (f : Bool) (s : Bytes) :
    Shows ⟨f, .place .data, some (preTag, s)⟩ (ascii "</pre>")
      [.shown (ascii "pre") (dropLineFeed s)] .start :=
  shows_of_feed (by cases f <;> rfl)

/-- A text that means nothing in HTML. -/
def PlainText (text : Bytes) : Prop := ∀ b ∈ text, b ≠ 60 ∧ b ≠ 38 ∧ b ≠ 0

instance (text : Bytes) : Decidable (PlainText text) :=
  inferInstanceAs (Decidable (∀ b ∈ text, b ≠ 60 ∧ b ≠ 38 ∧ b ≠ 0))

theorem PlainText.lineFeeds {text : Bytes} (h : PlainText text) : PlainText (lineFeeds text) := by
  intro b hb
  rcases mem_lineFeedsFrom hb with rfl | hmem
  · decide
  · exact h b hmem

/-- A link is a part of the text. -/
theorem mem_eraseMarkup {ps : List Piece} {l : Bytes} (hl : l ∈ wrappedLinks ps) {b : UInt8}
    (hb : b ∈ l) : b ∈ eraseMarkup ps := by
  obtain ⟨p, hp, hlink⟩ := List.mem_filterMap.mp hl
  rw [eraseMarkup_eq, List.mem_flatMap]
  refine ⟨p, hp, ?_⟩
  cases p with
  | byte c => exact absurd hlink (by simp)
  | anchor link =>
    rw [Option.some.inj hlink]
    exact hb

/-- **The pieces of a plain text** are read as its characters and its links. -/
theorem readsAs_html {ps : List Piece} (hplain : PlainText (eraseMarkup ps))
    (hlinks : ∀ l ∈ wrappedLinks ps, Unquoted (target l) ∧ OnOneLine l) :
    ReadsAs (html ps) ((wrappedLinks ps).map target)
      (dropLineFeed (lineFeeds (eraseMarkup ps))) := by
  have hlines : ∀ l ∈ wrappedLinks ps, OnOneLine l := fun l hl => (hlinks l hl).2
  have herase : eraseMarkup (feedPieces false ps) = lineFeeds (eraseMarkup ps) :=
    eraseMarkup_feedPieces hlines false
  have hfed := hplain.lineFeeds
  rw [← herase] at hfed
  have hwrapped := wrappedLinks_feedPieces false ps
  have hstart : Textual (.place .data) := Or.inl rfl
  obtain ⟨toks, st', hrefs, _, hreads, hmarkup, hall, hexact⟩ :=
    reads_pieces hstart (fun b hb => (hfed b hb).1) fun l hl => (hlinks l (hwrapped ▸ hl)).1
  obtain ⟨rfl, hchars⟩ := hexact (fun b hb => (hfed b hb).2.1) rfl
  rw [hwrapped] at hall
  have htargets : hrefs = (wrappedLinks ps).map target := by
    refine hrefs_eq (fun l hl => ?_) hall
    have hlink : ∀ b ∈ l, b ≠ 38 := fun b hb => (hplain b (mem_eraseMarkup hl hb)).2.1
    rcases NoteMarkup.target_cases l with ht | ht <;> rw [ht]
    · exact hlink
    · rw [List.forall_mem_append]
      exact ⟨by decide +kernel, hlink⟩
  -- no tag of an anchor closes the element
  have hclosing : ∀ t, Token.tag t ∈ toks → t.closing = true → t.name ≠ preTag.name := by
    intro t ht _
    have hmem : Token.tag t ∈ toks.filter isMarkup := List.mem_filter.mpr ⟨ht, rfl⟩
    rw [hmarkup, List.mem_flatMap] at hmem
    obtain ⟨href, _, htag⟩ := hmem
    rw [anchorTags, List.mem_cons, List.mem_singleton] at htag
    have hname : ascii "a" ≠ preTag.name := by decide
    rcases htag with htag | htag <;> rw [Token.tag.inj htag] <;> exact hname
  have hrun := Reader.run_inside hclosing []
  rw [List.nil_append, hchars, herase, ← innerItems_markup, hmarkup, innerItems_anchorTags,
    htargets] at hrun
  have htext : Shows ⟨false, .place .data, inside preTag⟩ (html ps)
      (((wrappedLinks ps).map target).map .link)
      ⟨returnAfter false (html ps), .place .data, some (preTag, lineFeeds (eraseMarkup ps))⟩ := by
    refine shows_of_reads (fun rest => ?_) hreads hrun
    rw [lineFeedsFrom_append', lineFeedsFrom_html hlines]
  exact htext.append (shows_preEnd _ _)

/-! ### Notes -/

/-- **A text as it is shown**: its links lead to their targets, and it is whole unless two bytes
or more stand behind the last link. -/
structure ShownAs (findAllString : Bytes → List Bytes) (text : Bytes) (row : Row) : Prop where
  links : row.1 = (findAllString text).map target
  text : ∃ shown, shown <+: text ∧ row.2 = dropLineFeed (lineFeeds shown) ∧
    (shown = text ↔ ¬Placed 2 (findAllString text) text)

section Pattern

variable {u : LinkPattern.Unicode} {gtld : LinkPattern.Gtld}

theorem onOneLine_of_link {text l : Bytes} (hl : l ∈ LinkPattern.findAllString u gtld text) :
    OnOneLine l := by
  refine ⟨fun hnil => ?_, fun b hb => ?_⟩
  · obtain ⟨_, m, _, hne, _, rfl⟩ := LinkShape.mem_findAllString hl
    exact LinkShape.encode_ne_nil hne hnil
  · have hbyte := LinkShape.isLinkByte_of_link hl b hb
    constructor <;> rintro rfl <;> exact absurd hbyte (by decide)

/-- The HTML of a plain text is read as the text. -/
theorem exists_shownAs {fuel : ℕ} {text out : Bytes} (hplain : PlainText text)
    (hrun : partialHtmlParser (LinkPattern.findAllString u gtld) fuel text = some out) :
    ∃ row, ShownAs (LinkPattern.findAllString u gtld) text row ∧ ReadsAs out row.1 row.2 := by
  obtain ⟨ps, hps, rfl⟩ := partialHtmlParser_eq_some_iff.mp hrun
  have hlinks := wrappedLinks_of_pieces hps
  have hfront := eraseMarkup_front hps
  have hreads := readsAs_html (fun b hb => hplain b (hfront.subset hb)) fun l hl =>
    ⟨unquoted_target (hlinks ▸ hl), onOneLine_of_link (hlinks ▸ hl)⟩
  rw [hlinks] at hreads
  exact ⟨(_, _), ⟨rfl, eraseMarkup ps, hfront, rfl, eraseMarkup_pieces_iff hps⟩, hreads⟩

/-- The notes of a listing, as they are shown. -/
theorem forall₂_shownAs {env : Env} (hfind : env.findAllString = LinkPattern.findAllString u gtld)
    {rows : List (ℤ × Entry)} (hplain : ∀ r ∈ rows, PlainText r.2.text) {htmlNotes : List HtmlNote}
    (h : List.Forall₂ (fun n html => noteToHtmlNote env.findAllString env.fuel n = some html)
      (rows.map fun r => noteOf r.1 r.2) htmlNotes) :
    htmlNotes.map numberAndTitle = rows.map (fun r => (r.1, r.2.title)) ∧
      ∃ shown : List Row,
        List.Forall₂ (fun r row => ShownAs env.findAllString r.2.text row) rows shown ∧
        List.Forall₂ (fun note row => ReadsAs note.text row.1 row.2) htmlNotes shown := by
  induction rows generalizing htmlNotes with
  | nil =>
    cases h with
    | nil => exact ⟨rfl, [], .nil, .nil⟩
  | cons r rows ih =>
    rw [List.forall_mem_cons] at hplain
    cases h with
    | @cons _ html _ htmlNotes hhead htail =>
      rw [noteToHtmlNote_noteOf, Option.map_eq_some_iff] at hhead
      obtain ⟨out, hout, rfl⟩ := hhead
      obtain ⟨hsame, shown, hshown, hread⟩ := ih hplain.2 htail
      rw [hfind] at hout
      obtain ⟨row, hrow, hreads⟩ := exists_shownAs hplain.1 hout
      rw [← hfind] at hrow
      refine ⟨?_, row :: shown, .cons hrow hshown, .cons hreads hread⟩
      rw [List.map_cons, List.map_cons, hsame]
      rfl

end Pattern

/-! ### Pages -/

/-- What a route lists, if it lists notes, and whether it is a filter. -/
def listedBy : Route → Option (Bool × (Entry → Bool))
  | .indexHandler => some (false, fun _ => true)
  | .titleFilterHandler filterInput => some (true, matching (ascii "TitleFilter") filterInput)
  | .textFilterHandler filterInput => some (true, matching (ascii "TextFilter") filterInput)
  | .bothFilterHandler filterInput => some (true, matching (ascii "BothFilter") filterInput)
  | _ => none

section Answered

variable {env : Env} {t : ℕ} {w w' : World} {page : Page}

/-- A page that is answered was written. -/
theorem of_pageAnswer {shown : Page} {err : Option GoError}
    (h : .page page = pageAnswer shown err) : page = shown := by
  cases err with
  | none => exact Response.page.inj h
  | some err => exact absurd h (by simp [pageAnswer, internalServerError])

theorem page_of_listing {s : Slice} {condition : Entry → Bool} {notes : NotesTable}
    {filtered : Bool} (hholds : Holds w s condition notes)
    (h : Answers env t (listing (noteToHtmlNote env.findAllString env.fuel) filtered (s, none)) w
      (.page page)) :
    ∃ htmlNotes, List.Forall₂ (fun n html =>
        noteToHtmlNote env.findAllString env.fuel n = some html)
          ((selected condition notes).map fun r => noteOf r.1 r.2) htmlNotes ∧
      page = listingPage filtered htmlNotes := by
  obtain ⟨helements, hlen⟩ := hholds
  have hanswers := @answers_renderNotes env t w (.page page)
    (noteToHtmlNote env.findAllString env.fuel) s _ (List.suffix_refl (w.heap.elements s)) hlen
    filtered []
  rw [hlen] at hanswers
  obtain ⟨htmlNotes, hforall, hpage⟩ := hanswers.mp h
  rw [helements] at hforall
  exact ⟨htmlNotes, hforall, of_pageAnswer hpage⟩

variable (hdb : env.DatabaseSucceeds)

include hdb

theorem page_of_query {q : SelectQuery} {params : List Bytes} (hparams : params.length = q.numInput)
    {condition : Entry → Bool} (hcondition : q.condition params = condition)
    (h : Answers env t (filteredIndexHandler (noteToHtmlNote env.findAllString env.fuel) q params) w
      (.page page)) :
    ∃ htmlNotes, List.Forall₂ (fun n html =>
        noteToHtmlNote env.findAllString env.fuel n = some html)
          ((selected condition w.notes).map fun r => noteOf r.1 r.2) htmlNotes ∧
      page = listingPage true htmlNotes := by
  obtain ⟨s, w₁, hop, hholds⟩ := loadNotesWhere_holds (t := t) (w := w) hdb hparams
  rw [hcondition] at hholds
  exact page_of_listing hholds ((answers_call hop).mp h)

/-- **The page of a listing** has the notes that are selected. -/
theorem page_of_listed {route : Route} {filtered : Bool} {condition : Entry → Bool}
    (hroute : listedBy route = some (filtered, condition)) {form : Form}
    (h : Answers env t (route.body env form) w (.page page)) :
    ∃ htmlNotes, List.Forall₂ (fun n html =>
        noteToHtmlNote env.findAllString env.fuel n = some html)
          ((selected condition w.notes).map fun r => noteOf r.1 r.2) htmlNotes ∧
      page = listingPage filtered htmlNotes := by
  cases route with
  | indexHandler =>
    obtain ⟨rfl, rfl⟩ := Prod.mk.inj (Option.some.inj hroute)
    obtain ⟨s, w₁, hop, hholds⟩ := loadNotes_holds (t := t) (w := w) hdb
    exact page_of_listing hholds ((answers_call hop).mp h)
  | titleFilterHandler filterInput =>
    obtain ⟨rfl, rfl⟩ := Prod.mk.inj (Option.some.inj hroute)
    exact page_of_query hdb rfl (condition_title filterInput) h
  | textFilterHandler filterInput =>
    obtain ⟨rfl, rfl⟩ := Prod.mk.inj (Option.some.inj hroute)
    exact page_of_query hdb rfl rfl h
  | bothFilterHandler filterInput =>
    obtain ⟨rfl, rfl⟩ := Prod.mk.inj (Option.some.inj hroute)
    exact page_of_query hdb rfl rfl h
  | _ => exact absurd hroute (by simp [listedBy])

/-- The page of a note has that note. -/
theorem page_of_details {noteID : ℤ} {form : Form}
    (h : Answers env t ((Route.noteDetailsHandler noteID).body env form) w (.page page)) :
    ∃ e html, w.notes.lookup noteID = some e ∧
      noteToHtmlNote env.findAllString env.fuel (noteOf noteID e) = some html ∧
      page = detailsPage html := by
  obtain ⟨r, w₁, hop⟩ : ∃ r w₁, handle env t (.getNote noteID) w = some (r, w₁) := ⟨_, _, rfl⟩
  obtain ⟨_, hr⟩ := getNote_succeeds hdb hop
  replace h := (answers_call hop).mp h
  cases hrow : w.notes.lookup noteID with
  | none =>
    rw [hrow] at hr
    subst hr
    exact absurd (answers_ret.mp h) (by simp [internalServerError])
  | some e =>
    rw [hrow] at hr
    subst hr
    change Answers env t (withHtml (noteToHtmlNote env.findAllString env.fuel (noteOf noteID e))
      fun html => executePage (detailsPage html)) w₁ _ at h
    cases hhtml : noteToHtmlNote env.findAllString env.fuel (noteOf noteID e) with
    | none =>
      rw [hhtml] at h
      obtain ⟨es, w', hrun⟩ := h
      obtain ⟨r, _⟩ := (run_call_iff (handle env) t .hang _ w₁ w' _ es).mp hrun
      exact r.elim
    | some html =>
      rw [hhtml] at h
      exact ⟨e, html, rfl, hhtml, of_pageAnswer ((answers_executePage noteTemplate_mem).mp h)⟩

omit hdb in
/-- A page that answers a request is the answer of the body of its route. -/
theorem body_of_page {request : Request} {es : Trace}
    (hrun : run (handle env) t (serveHTTP env request) w = some (.page page, es, w')) :
    ∃ w₁, w₁.notes = w.notes ∧
      Answers env t ((routed request.path).body env request.form) w₁ (.page page) := by
  rcases serveHTTP_cases env request with ⟨_, hserve | ⟨url, hserve⟩⟩ | ⟨message, hserve⟩
  · rw [hserve] at hrun
    exact absurd (of_run_ret hrun).1 (by simp)
  · rw [hserve] at hrun
    exact absurd (of_run_ret hrun).1 (by simp)
  · rw [hserve] at hrun
    obtain ⟨e, es', _, _, htime, ⟨_, hanswer, _⟩ | ⟨_, hbody⟩⟩ := run_limited hrun
    · exact absurd hanswer (by simp)
    · exact ⟨e.after, htime.notes, es', w', hbody⟩

end Answered

/-! ### What is served -/

/-- **A listing shows its notes.** The page that answers a request for the index or for a filter
has its menu, and for each selected note, in the order of the query, the links of its row, its
title and its text. -/
theorem listing_shows {env : Env} (hdb : env.DatabaseSucceeds) {u : LinkPattern.Unicode}
    {gtld : LinkPattern.Gtld} (hfind : env.findAllString = LinkPattern.findAllString u gtld)
    {request : Request} {filtered : Bool} {condition : Entry → Bool}
    (hroute : listedBy (routed request.path) = some (filtered, condition)) {w w' : World}
    (hplain : ∀ r ∈ selected condition w.notes, PlainText r.2.text) {t : ℕ} {page : Page}
    {es : Trace} (hrun : run (handle env) t (serveHTTP env request) w = some (.page page, es, w'))
    (formatTime : Time → Bytes) :
    ∃ rows : List Row, List.Forall₂ (fun r row => ShownAs env.findAllString r.2.text row)
        (selected condition w.notes) rows ∧
      pageItems formatTime page = indexItems filtered
        ((selected condition w.notes).map fun r => (r.1, r.2.title)) rows := by
  obtain ⟨w₁, hnotes, hbody⟩ := body_of_page hrun
  obtain ⟨htmlNotes, hforall, rfl⟩ := page_of_listed hdb hroute hbody
  rw [hnotes] at hforall
  obtain ⟨hsame, rows, hshown, hread⟩ := forall₂_shownAs hfind hplain hforall
  refine ⟨rows, hshown, ?_⟩
  have hpage : pageHtml formatTime (listingPage filtered htmlNotes) =
      some (indexHtml ⟨htmlNotes, filtered⟩) := rfl
  rw [pageItems_eq hpage, view_indexHtml hread, hsame]

/-- A note with two links, and one with two lines. -/
def linkedNotes : NotesTable :=
  Availability.linkedNote.insert ⟨ascii "b", ascii "milk\r\nbread", 1, 1⟩

theorem listing_shows_index : ∃ page es w' row row',
    run (handle Availability.linking) 0 (serveHTTP Availability.linking ⟨ascii "/", []⟩)
        (World.initial linkedNotes) = some (.page page, es, w') ∧
      ShownAs Availability.linking.findAllString (ascii "milk\r\nbread") row ∧
      ShownAs Availability.linking.findAllString (ascii "see http://a.b, b.bit") row' ∧
      pageItems (fun _ => []) page =
        indexItems false [(2, ascii "b"), (1, ascii "a")] [row, row'] := by
  have hroute : listedBy (routed (ascii "/")) = listedBy .indexHandler := by
    rw [(by decide : routed (ascii "/") = .indexHandler)]
  have hrows : selected (fun _ => true) linkedNotes =
      [(2, ⟨ascii "b", ascii "milk\r\nbread", 1, 1⟩),
        (1, ⟨ascii "a", ascii "see http://a.b, b.bit", 0, 0⟩)] := by
    decide
  have hserve : (run (handle Availability.linking) 0
      (serveHTTP Availability.linking ⟨ascii "/", []⟩) (World.initial linkedNotes)).map
        (fun r => (listedIDs r.1).isSome) = some true := by
    decide +kernel
  obtain ⟨⟨a, es, w'⟩, hrun, hlisted⟩ := Option.map_eq_some_iff.mp hserve
  cases a with
  | page page =>
    obtain ⟨rows, hshown, hitems⟩ := listing_shows Availability.linking_succeeds rfl hroute
      (by decide +kernel) hrun (fun _ => [])
    change List.Forall₂ _ (selected (fun _ => true) linkedNotes) rows at hshown
    change _ = indexItems false ((selected (fun _ => true) linkedNotes).map _) rows at hitems
    rw [hrows] at hshown hitems
    obtain _ | ⟨hrow, _ | ⟨hrow', _ | _⟩⟩ := hshown
    exact ⟨page, es, w', _, _, hrun, hrow, hrow', hitems⟩
  | _ => exact absurd hlisted (by simp [listedIDs])

/-- **The page of a note shows it**: its title, its links, its text, and the links to edit,
paste and remove it. -/
theorem details_show {env : Env} (hdb : env.DatabaseSucceeds) {u : LinkPattern.Unicode}
    {gtld : LinkPattern.Gtld} (hfind : env.findAllString = LinkPattern.findAllString u gtld)
    {request : Request} {noteID : ℤ} (hroute : routed request.path = .noteDetailsHandler noteID)
    {w w' : World} (hplain : ∀ e, w.notes.lookup noteID = some e → PlainText e.text) {t : ℕ}
    {page : Page} {es : Trace}
    (hrun : run (handle env) t (serveHTTP env request) w = some (.page page, es, w'))
    (formatTime : Time → Bytes) :
    ∃ e row, w.notes.lookup noteID = some e ∧ ShownAs env.findAllString e.text row ∧
      pageItems formatTime page = noteItems noteID e.title row := by
  obtain ⟨w₁, hnotes, hbody⟩ := body_of_page hrun
  rw [hroute] at hbody
  obtain ⟨e, html, he, hhtml, rfl⟩ := page_of_details hdb hbody
  rw [hnotes] at he
  rw [noteToHtmlNote_noteOf, Option.map_eq_some_iff] at hhtml
  obtain ⟨out, hout, rfl⟩ := hhtml
  rw [hfind] at hout
  obtain ⟨row, hrow, hread⟩ := exists_shownAs (hplain e he) hout
  rw [← hfind] at hrow
  refine ⟨e, row, he, hrow, ?_⟩
  have hpage : pageHtml formatTime (detailsPage ⟨noteID, e.title, out, ofUnix e.addDate,
      ofUnix e.changeDate⟩) = some (noteHtml formatTime _) := rfl
  rw [pageItems_eq hpage, view_noteHtml formatTime hread]

theorem details_show_linked : ∃ page es w' row,
    run (handle Availability.linking) 0 (serveHTTP Availability.linking ⟨ascii "/Note/1", []⟩)
        (World.initial linkedNotes) = some (.page page, es, w') ∧
      ShownAs Availability.linking.findAllString (ascii "see http://a.b, b.bit") row ∧
      row.1 = [ascii "http://a.b", ascii "http://b.bit"] ∧
      pageItems (fun _ => []) page = noteItems 1 (ascii "a") row := by
  have hserve : (run (handle Availability.linking) 0
      (serveHTTP Availability.linking ⟨ascii "/Note/1", []⟩) (World.initial linkedNotes)).map
        Prod.fst = some (.page (detailsPage ⟨1, ascii "a",
          ascii "see <a href=http://a.b target=_new>http://a.b</a>, " ++
            ascii "<a href=http://b.bit target=_new>b.bit</a>", 0, 0⟩)) := by
    decide +kernel
  have hlookup : linkedNotes.lookup 1 = some ⟨ascii "a", ascii "see http://a.b, b.bit", 0, 0⟩ := by
    decide
  obtain ⟨⟨a, es, w'⟩, hrun, rfl⟩ := Option.map_eq_some_iff.mp hserve
  obtain ⟨e, row, he, hrow, hitems⟩ := details_show Availability.linking_succeeds rfl
    (by decide : routed (ascii "/Note/1") = .noteDetailsHandler 1)
    (fun e he => by
      rw [← Option.some.inj (hlookup.symm.trans he)]
      decide +kernel) hrun (fun _ => [])
  obtain rfl := Option.some.inj (hlookup.symm.trans he)
  refine ⟨_, es, w', row, hrun, hrow, ?_, hitems⟩
  rw [hrow.links]
  decide +kernel

end ShareNotes.ServedNotes
