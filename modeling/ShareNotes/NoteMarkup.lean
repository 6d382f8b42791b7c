import ShareNotes.Lib.HtmlTokens
import ShareNotes.LinkedText

/-!
# Markup in the text of a note

The HTML of a note goes into its page unescaped. If every special byte of the
text were written as a reference, in the text around the links and in both places
of a link, the page would show the characters of the text and the anchors and
nothing else (`tokenize_escapedHtml`). The loop writes the text as it is, which is
the same only when no byte of the text is special.
-/

namespace ShareNotes.NoteMarkup

open ShareNotes.Lib.Decimal ShareNotes.Lib.Placements ShareNotes.Lib.HtmlForm
open ShareNotes.Lib.HtmlTokens
open ShareNotes.Linkify ShareNotes.LinkScan ShareNotes.LinkedText

/-! ### What a page should show -/

/-- The characters of the text, and the two tags of an anchor. -/
def shown : Piece → List Token
  | .byte b => [.char b]
  | .anchor link =>
    .tag ⟨false, ascii "a", [(ascii "href", target link), (ascii "target", ascii "_new")]⟩ ::
      (link.map .char ++ [.tag ⟨true, ascii "a", []⟩])

/-- The HTML of a piece with the text in it escaped. -/
def escaped (esc : Escaper) : Piece → Bytes
  | .byte b => esc.escape b
  | .anchor link => ascii "<a href=" ++ (esc.escapeAll (target link) ++
      (ascii " target=_new>" ++ (esc.escapeAll link ++ closeTag)))

def escapedHtml (esc : Escaper) (ps : List Piece) : Bytes := ps.flatMap (escaped esc)

/-- No byte of a link is a blank. -/
def Unbroken (links : List Bytes) : Prop := ∀ l ∈ links, ∀ b ∈ l, isSpace b = false

theorem target_cases (link : Bytes) : target link = link ∨ target link = ascii "http://" ++ link := by
  rw [target]
  split
  · exact Or.inl rfl
  · exact Or.inr rfl

/-- A link without a scheme gets one, and a link with a scheme is not empty. -/
theorem target_ne_nil (link : Bytes) : target link ≠ [] := by
  rw [target]
  split
  · rename_i hscheme
    rintro rfl
    exact absurd hscheme (by decide)
  · exact List.append_ne_nil_of_left_ne_nil (by decide) link

theorem isSpace_target {link : Bytes} (h : ∀ b ∈ link, isSpace b = false) :
    ∀ b ∈ target link, isSpace b = false := by
  rcases target_cases link with htarget | htarget <;> rw [htarget]
  · exact h
  · intro b hb
    rcases List.mem_append.mp hb with hscheme | hlink
    · have hall : ∀ b ∈ ascii "http://", isSpace b = false := by decide +kernel
      exact hall b hscheme
    · exact h b hlink

/-- **An escaped piece is read as what it should show.** -/
theorem tokens_escaped (esc : Escaper) {p : Piece} (hp : Unbroken (wrappedLinks [p])) (s : Bytes) :
    tokens (.place .data) (escaped esc p ++ s) = shown p ++ tokens (.place .data) s := by
  cases p with
  | byte b =>
    have h := tokens_escape esc [b] s
    rw [Escaper.escapeAll, List.flatMap_singleton] at h
    exact h
  | anchor link =>
    have hlink := hp link (by simp [wrappedLinks])
    have hopen (rest : Bytes) : tokens (.place .data) (ascii "<a href=" ++ rest) =
        tokens (.beforeAttributeValue ⟨false, ascii "a", []⟩ (ascii "href")) rest := rfl
    have hattribute (value rest : Bytes) :
        tokens (.place (.value ⟨false, ascii "a", []⟩ (ascii "href") none value))
          (ascii " target=_new>" ++ rest) =
        .tag ⟨false, ascii "a", [(ascii "href", value), (ascii "target", ascii "_new")]⟩ ::
          tokens (.place .data) rest := rfl
    have hclose : tokens (.place .data) (closeTag ++ s) =
        .tag ⟨true, ascii "a", []⟩ :: tokens (.place .data) s := rfl
    rw [escaped, shown]
    simp only [List.append_assoc]
    rw [hopen, tokens_value_start esc (target_ne_nil link) (isSpace_target hlink), hattribute,
      tokens_escape, hclose]
    simp

/-- **Escaping neutralises every text.** -/
theorem tokenize_escapedHtml (esc : Escaper) {ps : List Piece} (hps : Unbroken (wrappedLinks ps)) :
    tokenize (escapedHtml esc ps) = ps.flatMap shown := by
  have hread : tokens (.place .data) (escapedHtml esc ps ++ []) =
      ps.flatMap shown ++ tokens (.place .data) [] := by
    induction ps with
    | nil => rfl
    | cons p ps ih =>
      have hsplit : wrappedLinks (p :: ps) = wrappedLinks [p] ++ wrappedLinks ps := by
        rw [← List.singleton_append, wrappedLinks, List.filterMap_append]
        rfl
      rw [Unbroken, hsplit, List.forall_mem_append] at hps
      rw [escapedHtml, List.flatMap_cons, List.append_assoc, tokens_escaped esc hps.1,
        List.flatMap_cons, List.append_assoc]
      exact congrArg _ (ih hps.2)
  rw [List.append_nil] at hread
  rw [tokenize, hread]
  exact List.append_nil _

/-! ### What is written -/

theorem length_le_escape (esc : Escaper) (b : UInt8) :
    1 ≤ (esc.escape b).length ∧ ((esc.escape b).length ≤ 1 → isSpecial b = false) := by
  rw [Escaper.escape]
  cases isSpecial b with
  | true => simp
  | false => simp

/-- Escaping makes a string longer, unless nothing in it is special. -/
theorem length_le_escapeAll (esc : Escaper) (s : Bytes) :
    s.length ≤ (esc.escapeAll s).length ∧
      ((esc.escapeAll s).length ≤ s.length → ∀ b ∈ s, isSpecial b = false) := by
  induction s with
  | nil => simp
  | cons b s ih =>
    obtain ⟨hle, hplain⟩ := ih
    obtain ⟨hb, hbplain⟩ := length_le_escape esc b
    have hlen : (esc.escapeAll (b :: s)).length =
        (esc.escape b).length + (esc.escapeAll s).length := by
      rw [Escaper.escapeAll, List.flatMap_cons, List.length_append]
      rfl
    rw [hlen, List.length_cons]
    refine ⟨by omega, fun h => ?_⟩
    rw [List.forall_mem_cons]
    exact ⟨hbplain (by omega), hplain (by omega)⟩

theorem length_le_escaped (esc : Escaper) (p : Piece) :
    (html [p]).length ≤ (escaped esc p).length ∧
      ((escaped esc p).length ≤ (html [p]).length → ∀ b ∈ p.source, isSpecial b = false) := by
  cases p with
  | byte b =>
    obtain ⟨hb, hbplain⟩ := length_le_escape esc b
    refine ⟨hb, fun h => ?_⟩
    rw [Piece.source, List.forall_mem_singleton]
    exact hbplain h
  | anchor link =>
    obtain ⟨htarget, _⟩ := length_le_escapeAll esc (target link)
    obtain ⟨hlink, hplain⟩ := length_le_escapeAll esc link
    rw [html_anchor, anchor_eq, openTag, escaped]
    simp only [List.length_append]
    exact ⟨by omega, fun h => hplain (by omega)⟩

theorem length_le_escapedHtml (esc : Escaper) (ps : List Piece) :
    (html ps).length ≤ (escapedHtml esc ps).length ∧
      ((escapedHtml esc ps).length ≤ (html ps).length →
        ∀ b ∈ eraseMarkup ps, isSpecial b = false) := by
  rw [eraseMarkup_eq]
  induction ps with
  | nil => exact ⟨le_rfl, fun _ => by simp⟩
  | cons p ps ih =>
    obtain ⟨hle, hplain⟩ := ih
    obtain ⟨hp, hpplain⟩ := length_le_escaped esc p
    have hhtml : html (p :: ps) = html [p] ++ html ps := html_append [p] ps
    have hescaped : escapedHtml esc (p :: ps) = escaped esc p ++ escapedHtml esc ps := rfl
    rw [hhtml, hescaped, List.length_append, List.length_append]
    refine ⟨by omega, fun h => ?_⟩
    rw [List.flatMap_cons, List.forall_mem_append]
    exact ⟨hpplain (by omega), hplain (by omega)⟩

/-- Without special bytes there is nothing to escape. -/
theorem escapedHtml_eq (esc : Escaper) {ps : List Piece}
    (hps : ∀ b ∈ eraseMarkup ps, isSpecial b = false) : escapedHtml esc ps = html ps := by
  rw [eraseMarkup_eq] at hps
  induction ps with
  | nil => rfl
  | cons p ps ih =>
    rw [List.flatMap_cons, List.forall_mem_append] at hps
    have hhtml : html (p :: ps) = html [p] ++ html ps := html_append [p] ps
    have hescaped : escapedHtml esc (p :: ps) = escaped esc p ++ escapedHtml esc ps := rfl
    rw [hhtml, hescaped, ih hps.2]
    congr 1
    cases p with
    | byte b =>
      have hb := esc.escapeAll_eq hps.1
      rw [Piece.source, Escaper.escapeAll, List.flatMap_singleton] at hb
      exact hb
    | anchor link =>
      have hlink : ∀ b ∈ link, isSpecial b = false := hps.1
      have htarget : ∀ b ∈ target link, isSpecial b = false := by
        rcases target_cases link with h | h <;> rw [h]
        · exact hlink
        · rw [List.forall_mem_append]
          exact ⟨by decide +kernel, hlink⟩
      rw [html_anchor, anchor_eq, openTag, escaped, esc.escapeAll_eq hlink,
        esc.escapeAll_eq htarget]
      simp only [List.append_assoc]

/-! ### Texts that inject nothing -/

/-- The HTML is read as the text and the anchors, and every special byte of the text is
in it as a reference. -/
structure InjectsNothing (text out : Bytes) (ps : List Piece) : Prop where
  tokens : tokenize out = ps.flatMap shown
  escaped : ∃ esc : Escaper, out = escapedHtml esc ps
  kept : (eraseMarkup ps).filter isSpecial = text.filter isSpecial

theorem filter_special_eq_nil {s : Bytes} :
    s.filter isSpecial = [] ↔ ∀ b ∈ s, isSpecial b = false := by
  rw [List.filter_eq_nil_iff]
  simp only [Bool.not_eq_true]

variable {findAllString : Bytes → List Bytes} {fuel : ℕ} {text : Bytes} {ps : List Piece}

theorem injectsNothing_iff (hlinks : Unbroken (findAllString text))
    (hps : partialHtmlPieces findAllString fuel text = some ps) :
    InjectsNothing text (html ps) ps ↔ ∀ b ∈ text, isSpecial b = false := by
  constructor
  · intro ⟨_, ⟨esc, hout⟩, hkept⟩
    have hplain := (length_le_escapedHtml esc ps).2 (by rw [hout])
    rw [filter_special_eq_nil.mpr hplain] at hkept
    exact filter_special_eq_nil.mp hkept.symm
  · intro hplain
    have hshown : ∀ b ∈ eraseMarkup ps, isSpecial b = false := by
      intro b hb
      exact hplain b ((eraseMarkup_front hps).subset hb)
    have hhtml := escapedHtml_eq templateEscaper hshown
    refine ⟨?_, ⟨templateEscaper, hhtml.symm⟩, ?_⟩
    · rw [← hhtml]
      apply tokenize_escapedHtml
      rw [wrappedLinks_of_pieces hps]
      exact hlinks
    · rw [filter_special_eq_nil.mpr hshown, filter_special_eq_nil.mpr hplain]

/-- **A text injects nothing exactly when nothing in it is special**, and then the page
shows the whole text if the loop copies all of it. -/
theorem noteText_injects_nothing_iff {out : Bytes} (hlinks : Unbroken (findAllString text))
    (hrun : partialHtmlParser findAllString fuel text = some out) :
    ∃ ps, partialHtmlPieces findAllString fuel text = some ps ∧ html ps = out ∧
      (InjectsNothing text out ps ↔ ∀ b ∈ text, isSpecial b = false) ∧
      (InjectsNothing text out ps ∧ eraseMarkup ps = text ↔
        (∀ b ∈ text, isSpecial b = false) ∧ ¬Placed 2 (findAllString text) text) := by
  obtain ⟨ps, hps, rfl⟩ := partialHtmlParser_eq_some_iff.mp hrun
  have hiff := injectsNothing_iff hlinks hps
  refine ⟨ps, hps, rfl, hiff, ?_⟩
  rw [hiff, eraseMarkup_pieces_iff hps]

theorem noteText_injects_nothing_iff_oneLink :
    ∃ ps, partialHtmlPieces oneLink 20 (ascii "see http://a.b!") = some ps ∧
      InjectsNothing (ascii "see http://a.b!")
        (ascii "see <a href=http://a.b target=_new>http://a.b</a>!") ps := by
  have hlinks : Unbroken (oneLink (ascii "see http://a.b!")) := by
    show ∀ l ∈ [ascii "http://a.b"], ∀ b ∈ l, isSpace b = false
    decide +kernel
  have hrun : partialHtmlParser oneLink 20 (ascii "see http://a.b!") =
      some (ascii "see <a href=http://a.b target=_new>http://a.b</a>!") := by decide
  have hplain : ∀ b ∈ ascii "see http://a.b!", isSpecial b = false := by decide +kernel
  obtain ⟨ps, hps, _, hiff, _⟩ := noteText_injects_nothing_iff hlinks hrun
  exact ⟨ps, hps, hiff.mpr hplain⟩

/-- The matches of a text without links. -/
def noLinks (_ : Bytes) : List Bytes := []

/-- A script in a note is a script in the page. -/
theorem script_injected :
    ∃ ps, partialHtmlPieces noLinks 0 (ascii "<script>") = some ps ∧
      partialHtmlParser noLinks 0 (ascii "<script>") = some (ascii "<script>") ∧
      tokenize (ascii "<script>") = [.tag ⟨false, ascii "script", []⟩] ∧
      ¬InjectsNothing (ascii "<script>") (ascii "<script>") ps := by
  refine ⟨(ascii "<script>").map .byte, rfl, rfl, by decide +kernel, fun h => ?_⟩
  exact absurd h.tokens (by decide +kernel)

end ShareNotes.NoteMarkup
