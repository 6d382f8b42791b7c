import ShareNotes.Lib.HtmlReading
import ShareNotes.LinkShape
import ShareNotes.NoteMarkup

/-!
# Links cannot break out of their anchors

The address of a link is written into an attribute without quotes, unescaped. What the
pattern takes for a link holds no byte that ends such a value or starts a tag, so the
page reads each anchor as one tag with two attributes, some characters, and the closing
tag. A note without `<` therefore has no markup but its anchors, ampersands and
quotation marks in it notwithstanding.
-/

namespace ShareNotes.AnchorMarkup

open ShareNotes.Lib.Decimal ShareNotes.Lib.HtmlForm ShareNotes.Lib.HtmlTokens
open ShareNotes.Lib.HtmlReading
open ShareNotes.Linkify ShareNotes.LinkScan ShareNotes.LinkedText ShareNotes.LinkPattern
open ShareNotes.LinkShape

/-! ### Anchors -/

/-- The opening tag of an anchor, as it is read. -/
def anchorTag (href : Bytes) : Tag :=
  ⟨false, ascii "a", [(ascii "href", href), (ascii "target", ascii "_new")]⟩

theorem reads_openTag {address : Bytes} (h : Unquoted address) :
    ∃ href, ReadAs address href ∧ Reads .tagOpen
      (ascii "a href=" ++ (address ++ ascii " target=_new>")) [.tag (anchorTag href)]
      (.place .data) := by
  obtain ⟨href, hhref, hvalue⟩ := h.reads ⟨false, ascii "a", []⟩ (ascii "href")
  have hname : Reads .tagOpen (ascii "a href=") []
      (.beforeAttributeValue ⟨false, ascii "a", []⟩ (ascii "href")) := fun _ => rfl
  have htarget : Reads (.beforeAttributeName
      (Tag.add ⟨false, ascii "a", []⟩ (ascii "href") href)) (ascii "target=_new>")
      [.tag (anchorTag href)] (.place .data) := fun _ => rfl
  have hblank : ascii " target=_new>" = [32] ++ ascii "target=_new>" := by decide
  refine ⟨href, hhref, ?_⟩
  rw [hblank, ← List.append_assoc address]
  exact hname.append (hvalue.append htarget)

/-- The two tags of an anchor. -/
def anchorTags (href : Bytes) : List Token :=
  [.tag (anchorTag href), .tag ⟨true, ascii "a", []⟩]

/-- **An anchor is read as its two tags and characters**, wherever only characters have been read. -/
theorem reads_anchor {st : State} (h : Textual st) {link : Bytes}
    (htarget : Unquoted (target link)) (hlink : ∀ b ∈ link, b ≠ 60) :
    ∃ toks href, ReadAs (target link) href ∧ Reads st (anchor link) toks (.place .data) ∧
      toks.filter isMarkup = anchorTags href ∧
      ((∀ b ∈ link, b ≠ 38) → st = .place .data → chars toks = link) := by
  obtain ⟨href, hhref, hopen⟩ := reads_openTag htarget
  have hclose : Reads .tagOpen (ascii "/a>") [.tag ⟨true, ascii "a", []⟩] (.place .data) :=
    fun _ => rfl
  have hanchor : anchor link = [60] ++ ((ascii "a href=" ++ (target link ++
      ascii " target=_new>")) ++ (link ++ ([60] ++ ascii "/a>"))) := by
    rw [anchor_eq, openTag, closeTag]
    have hless : ascii "<a href=" = [60] ++ ascii "a href=" := by decide
    have hslash : ascii "</a>" = [60] ++ ascii "/a>" := by decide
    rw [hless, hslash]
    simp only [List.append_assoc]
  by_cases hplain : (∀ b ∈ link, b ≠ 38) ∧ st = .place .data
  · have hopens : Reads st [60] [] .tagOpen := by
      rw [hplain.2]
      exact reads_step rfl
    have hcloses : Reads (.place .data) [60] [] .tagOpen := reads_step rfl
    refine ⟨_, href, hhref, hanchor ▸ hopens.append (hopen.append ((reads_plain hlink
      hplain.1).append (hcloses.append hclose))), ?_, fun _ _ => ?_⟩
    · simp only [List.filter_append, filter_chars, List.nil_append]
      rfl
    · simp only [chars_append, chars_map, List.nil_append]
      exact List.append_nil link
  · obtain ⟨cs, hopens⟩ := h.opens
    obtain ⟨st₁, cs₁, hst₁, hlink⟩ := Textual.reads (Or.inl rfl) hlink
    obtain ⟨cs₂, hcloses⟩ := hst₁.opens
    refine ⟨_, href, hhref, hanchor ▸ hopens.append (hopen.append (hlink.append
      (hcloses.append hclose))), ?_, fun hamp hst => absurd ⟨hamp, hst⟩ hplain⟩
    simp only [List.filter_append, filter_chars, List.nil_append]
    rfl

/-! ### Whole notes -/

/-- **The markup of the pieces of a note** is that of its anchors, in their order, and
without ampersands the characters are those of the text. -/
theorem reads_pieces {st : State} (h : Textual st) {ps : List Piece}
    (hbytes : ∀ b ∈ eraseMarkup ps, b ≠ 60)
    (hlinks : ∀ l ∈ wrappedLinks ps, Unquoted (target l)) :
    ∃ toks st' hrefs, Textual st' ∧ Reads st (html ps) toks st' ∧
      toks.filter isMarkup = hrefs.flatMap anchorTags ∧
      List.Forall₂ (fun l href => ReadAs (target l) href) (wrappedLinks ps) hrefs ∧
      ((∀ b ∈ eraseMarkup ps, b ≠ 38) → st = .place .data →
        st' = .place .data ∧ chars toks = eraseMarkup ps) := by
  rw [eraseMarkup_eq] at hbytes ⊢
  induction ps generalizing st with
  | nil => exact ⟨[], st, [], h, fun _ => rfl, rfl, .nil, fun _ hst => ⟨hst, rfl⟩⟩
  | cons p ps ih =>
    rw [List.flatMap_cons, List.forall_mem_append] at hbytes
    have hhtml : html (p :: ps) = html [p] ++ html ps := html_append [p] ps
    rw [hhtml]
    simp only [List.flatMap_cons, List.forall_mem_append]
    cases p with
    | byte b =>
      have hsource : Piece.source (.byte b) = [b] := rfl
      obtain ⟨st₁, cs, hst₁, hread, hsame⟩ : ∃ st₁ cs, Textual st₁ ∧
          Reads st [b] (List.map .char cs) st₁ ∧
          (b ≠ 38 → st = .place .data → st₁ = .place .data ∧ cs = [b]) := by
        by_cases hplain : b ≠ 38 ∧ st = .place .data
        · have hread : Reads (.place .data) [b] _ _ :=
            reads_plain hbytes.1 (fun c hc => List.mem_singleton.mp hc ▸ hplain.1)
          exact ⟨_, [b], Or.inl rfl, hplain.2 ▸ hread, fun _ _ => ⟨rfl, rfl⟩⟩
        · obtain ⟨st₁, cs, hst₁, hread⟩ := h.reads (s := [b]) hbytes.1
          exact ⟨st₁, cs, hst₁, hread, fun hamp hst => absurd ⟨hamp, hst⟩ hplain⟩
      obtain ⟨toks, st', hrefs, hst', hreads, hmarkup, hall, hexact⟩ := ih hst₁ hbytes.2 hlinks
      refine ⟨_, st', hrefs, hst', (html_byte b).symm ▸ hread.append hreads, ?_, hall,
        fun hamp hst => ?_⟩
      · rw [List.filter_append, filter_chars, List.nil_append, hmarkup]
      · obtain ⟨hst₁', hcs⟩ := hsame (hamp.1 b List.mem_cons_self) hst
        obtain ⟨hend, hchars⟩ := hexact hamp.2 hst₁'
        exact ⟨hend, by rw [chars_append, chars_map, hcs, hchars, hsource]⟩
    | anchor link =>
      have hwrapped : wrappedLinks (.anchor link :: ps) = link :: wrappedLinks ps := rfl
      rw [hwrapped, List.forall_mem_cons] at hlinks
      obtain ⟨toks₁, href, hhref, hread, hmarkup₁, hchars₁⟩ := reads_anchor h hlinks.1 hbytes.1
      obtain ⟨toks, st', hrefs, hst', hreads, hmarkup, hall, hexact⟩ :=
        ih (Or.inl rfl) hbytes.2 hlinks.2
      refine ⟨_, st', href :: hrefs, hst', (html_anchor link).symm ▸ hread.append hreads, ?_,
        .cons hhref hall, fun hamp hst => ?_⟩
      · rw [List.filter_append, hmarkup₁, hmarkup, List.flatMap_cons]
      · obtain ⟨hend, hchars⟩ := hexact hamp.2 rfl
        exact ⟨hend, by rw [chars_append, hchars₁ hamp.1 hst, hchars]; rfl⟩

/-- Links of the pattern can stand without quotes. -/
theorem unquoted_target {u : Unicode} {gtld : Gtld} {text l : Bytes}
    (hl : l ∈ findAllString u gtld text) : Unquoted (target l) := by
  have hbytes := isLinkByte_of_link hl
  have hfirst := isFirstByte_of_link hl
  have hnot {c : UInt8} (hc : isLinkByte c = false) : ∀ b ∈ target l, isLinkByte b = true → b ≠ c := by
    rintro b _ hb rfl
    rw [hc] at hb
    exact absurd hb (by decide)
  have htarget : ∀ b ∈ target l, isLinkByte b = true := by
    rcases NoteMarkup.target_cases l with h | h <;> rw [h]
    · exact hbytes
    · rw [List.forall_mem_append]
      exact ⟨by decide +kernel, hbytes⟩
  refine ⟨NoteMarkup.target_ne_nil l, fun b hb => ?_, fun b hb => ?_, ?_⟩
  · cases hspace : isSpace b with
    | false => rfl
    | true =>
      simp only [isSpace, Bool.or_eq_true, decide_eq_true_eq] at hspace
      rcases hspace with (((rfl | rfl) | rfl) | rfl) | rfl <;>
        exact absurd (htarget _ hb) (by decide)
  · exact hnot (by decide) b hb (htarget b hb)
  · intro b hb
    have hfirst' : isFirstByte b = true := by
      rcases NoteMarkup.target_cases l with h | h <;> rw [h] at hb
      · exact hfirst b hb
      · obtain rfl : b = 104 := (Option.some.inj hb).symm
        decide
    refine ⟨?_, ?_, ?_⟩ <;> rintro rfl <;> exact absurd hfirst' (by decide)

/-- **A note without `<` has no markup but the anchors of its links.** -/
theorem noteText_markup (u : Unicode) (gtld : Gtld) {text out : Bytes} {fuel : ℕ}
    (htext : ∀ b ∈ text, b ≠ 60)
    (hrun : partialHtmlParser (findAllString u gtld) fuel text = some out) :
    ∃ hrefs, (tokenize out).filter isMarkup = hrefs.flatMap anchorTags ∧
      List.Forall₂ (fun l href => ReadAs (target l) href) (findAllString u gtld text) hrefs := by
  obtain ⟨ps, hps, rfl⟩ := partialHtmlParser_eq_some_iff.mp hrun
  have hlinks := wrappedLinks_of_pieces hps
  have hstart : Textual (.place .data) := Or.inl rfl
  obtain ⟨toks, st', hrefs, hst', hreads, hmarkup, hall, _⟩ := reads_pieces hstart
    (fun b hb => htext b ((eraseMarkup_front hps).subset hb))
    fun l hl => unquoted_target (hlinks ▸ hl)
  refine ⟨hrefs, ?_, hlinks ▸ hall⟩
  have hend : (tokens st' []).filter isMarkup = [] := by
    rcases hst' with rfl | ⟨raw, rfl⟩
    · rfl
    · exact filter_chars (38 :: raw)
  have hread := hreads []
  rw [List.append_nil] at hread
  rw [tokenize, hread, List.filter_append, hmarkup, hend, List.append_nil]

theorem noteText_markup_quote :
    ∃ hrefs, (tokenize (ascii "&\"<a href=http://a.bit target=_new>a.bit</a>\"")).filter isMarkup =
        hrefs.flatMap anchorTags ∧
      List.Forall₂ (fun l href => ReadAs (target l) href) [ascii "a.bit"] hrefs := by
  have hlinks : findAllString asciiUnicode pseudoTLDs (ascii "&\"a.bit\"") = [ascii "a.bit"] := by
    decide +kernel
  have hrun : partialHtmlParser (findAllString asciiUnicode pseudoTLDs) 9 (ascii "&\"a.bit\"") =
      some (ascii "&\"<a href=http://a.bit target=_new>a.bit</a>\"") := by decide +kernel
  rw [← hlinks]
  exact noteText_markup asciiUnicode pseudoTLDs (by decide +kernel) hrun

end ShareNotes.AnchorMarkup
