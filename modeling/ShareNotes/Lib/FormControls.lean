import ShareNotes.Lib.HtmlTokens

/-!
# Text inputs and text areas

A template writes a text into an element whose content is text, or a single line
into an unquoted attribute. When the page is read, all line breaks become line feeds, the
one behind the start tag of a text area is dropped, and references are replaced;
when the form is submitted, each line break becomes a carriage return and a line
feed. A text with such line breaks comes back as it was, unless it starts with one.
-/

namespace ShareNotes.Lib.FormControls

open ShareNotes.Lib.Decimal ShareNotes.Lib.HtmlForm ShareNotes.Lib.HtmlTokens

/-! ### Line breaks -/

/-- Line breaks as line feeds; a line feed is dropped behind a carriage return. -/
def lineFeedsFrom : Bool → Bytes → Bytes
  | _, [] => []
  | afterReturn, b :: s =>
    if b = 13 then 10 :: lineFeedsFrom true s
    else if b = 10 ∧ afterReturn then lineFeedsFrom false s
    else b :: lineFeedsFrom false s

def lineFeeds (s : Bytes) : Bytes := lineFeedsFrom false s

/-- A line feed with a carriage return before it. -/
def expandByte (b : UInt8) : Bytes := if b = 10 then [13, 10] else [b]

/-- The line breaks of a value that is submitted. -/
def submittedBreaks (s : Bytes) : Bytes := (lineFeeds s).flatMap expandByte

/-- No carriage return is left. -/
theorem not_mem_lineFeedsFrom (afterReturn : Bool) (s : Bytes) :
    13 ∉ lineFeedsFrom afterReturn s := by
  induction s generalizing afterReturn with
  | nil => exact List.not_mem_nil
  | cons b s ih =>
    rw [lineFeedsFrom]
    split
    · rw [List.mem_cons, not_or]
      exact ⟨by decide, ih true⟩
    · rename_i hb
      split
      · exact ih false
      · rw [List.mem_cons, not_or]
        exact ⟨Ne.symm hb, ih false⟩

theorem lineFeeds_eq_self {s : Bytes} (hs : 13 ∉ s) : lineFeeds s = s := by
  rw [lineFeeds]
  induction s with
  | nil => rfl
  | cons b s ih =>
    rw [List.mem_cons, not_or] at hs
    rw [lineFeedsFrom, if_neg (Ne.symm hs.1), if_neg fun h => Bool.noConfusion h.2, ih hs.2]

theorem submittedBreaks_eq_self {s : Bytes} (hs : ∀ b ∈ s, b ≠ 10 ∧ b ≠ 13) :
    submittedBreaks s = s := by
  rw [submittedBreaks, lineFeeds_eq_self fun h => (hs 13 h).2 rfl]
  induction s with
  | nil => rfl
  | cons b s ih =>
    rw [List.forall_mem_cons] at hs
    rw [List.flatMap_cons, ih hs.2, expandByte, if_neg hs.1.1]
    rfl

/-- What was expanded is read as it was. -/
theorem lineFeeds_expand {s : Bytes} (hs : 13 ∉ s) : lineFeeds (s.flatMap expandByte) = s := by
  rw [lineFeeds]
  induction s with
  | nil => rfl
  | cons b s ih =>
    rw [List.mem_cons, not_or] at hs
    rw [List.flatMap_cons, expandByte]
    by_cases hb : b = 10
    · rw [if_pos hb, hb]
      show lineFeedsFrom false (13 :: 10 :: s.flatMap expandByte) = _
      rw [lineFeedsFrom, if_pos rfl, lineFeedsFrom, if_neg (by decide), if_pos ⟨rfl, rfl⟩, ih hs.2]
    · rw [if_neg hb, List.singleton_append, lineFeedsFrom, if_neg (Ne.symm hs.1),
        if_neg fun h => hb h.1, ih hs.2]

theorem lineFeeds_submittedBreaks (s : Bytes) : lineFeeds (submittedBreaks s) = lineFeeds s :=
  lineFeeds_expand (not_mem_lineFeedsFrom false s)

/-- **Reading and submitting line breaks** gives what was submitted before. -/
theorem submittedBreaks_lineFeeds (s : Bytes) :
    submittedBreaks (lineFeeds s) = submittedBreaks s := by
  have hself : lineFeeds (lineFeeds s) = lineFeeds s :=
    lineFeeds_eq_self (not_mem_lineFeedsFrom false s)
  rw [submittedBreaks, hself, submittedBreaks]

/-- Bytes that are no line breaks stay. -/
theorem lineFeedsFrom_append {r : Bytes} (hr : ∀ b ∈ r, b ≠ 10 ∧ b ≠ 13) (hne : r ≠ [])
    (afterReturn : Bool) (s : Bytes) :
    lineFeedsFrom afterReturn (r ++ s) = r ++ lineFeedsFrom false s := by
  induction r generalizing afterReturn with
  | nil => exact absurd rfl hne
  | cons b r ih =>
    rw [List.forall_mem_cons] at hr
    rw [List.cons_append, lineFeedsFrom, if_neg hr.1.2, if_neg fun h => hr.1.1 h.1]
    by_cases hnil : r = []
    · rw [hnil]
      rfl
    · rw [ih hr.2 hnil]
      rfl

/-! ### Text in an element -/

/-- The bytes that are escaped in an element whose content is text. -/
def htmlReplacementTable : List (UInt8 × Bytes) :=
  [(0, [0xEF, 0xBF, 0xBD]), (34, ascii "&#34;"), (38, ascii "&amp;"), (39, ascii "&#39;"),
    (43, ascii "&#43;"), (60, ascii "&lt;"), (62, ascii "&gt;")]

def rcdataByte (b : UInt8) : Bytes := (htmlReplacementTable.lookup b).getD [b]

/-- The escaper for the content of a text area. -/
def rcdataEscaper (s : Bytes) : Bytes := s.flatMap rcdataByte

theorem htmlReplacementTable_cases : ∀ p ∈ htmlReplacementTable, p.1 = 0 ∨
    (p ∈ htmlNospaceReplacementTable ∧ p.2 ≠ [] ∧ p.1 ≠ 10 ∧ p.1 ≠ 13 ∧
      (p.2.all fun c => c ≠ 10 ∧ c ≠ 13 ∧ c ≠ 60) = true) := by
  decide

/-- A byte is replaced as in an unquoted value, without line breaks and tags, or stays. -/
theorem rcdataByte_cases {b : UInt8} (hb : b ≠ 0) :
    ((b, rcdataByte b) ∈ htmlNospaceReplacementTable ∧ rcdataByte b ≠ [] ∧ b ≠ 10 ∧ b ≠ 13 ∧
        ∀ c ∈ rcdataByte b, c ≠ 10 ∧ c ≠ 13 ∧ c ≠ 60) ∨
      (rcdataByte b = [b] ∧ b ≠ 38 ∧ b ≠ 60) := by
  rcases replacement_cases htmlReplacementTable b with hmem | ⟨hself, hnot⟩
  · obtain ⟨hin, hne, h10, h13, hplain⟩ := (htmlReplacementTable_cases _ hmem).resolve_left hb
    exact Or.inl ⟨hin, hne, h10, h13, fun c hc =>
      of_decide_eq_true (List.all_eq_true.mp hplain c hc)⟩
  · refine Or.inr ⟨hself, ?_, ?_⟩ <;> rintro rfl <;> exact absurd hnot (by decide)

theorem rcdataEscaper_cons (b : UInt8) (s : Bytes) :
    rcdataEscaper (b :: s) = rcdataByte b ++ rcdataEscaper s := List.flatMap_cons

/-- **Reading the content of an element back.** -/
theorem decodeReferences_rcdata {s : Bytes} (hs : 0 ∉ s) {n : ℕ} (hn : s.length ≤ n) :
    decodeReferences n (rcdataEscaper s) = s := by
  induction s generalizing n with
  | nil => cases n <;> rfl
  | cons b s ih =>
    rw [List.mem_cons, not_or] at hs
    rw [List.length_cons] at hn
    obtain ⟨m, rfl⟩ : ∃ m, n = m + 1 := ⟨n - 1, by omega⟩
    have hrest := ih hs.2 (n := m) (by omega)
    have hb : b ≠ 0 := Ne.symm hs.1
    rw [rcdataEscaper_cons]
    rcases rcdataByte_cases hb with ⟨hmem, _⟩ | ⟨hself, hamp, _⟩
    · obtain ⟨r, hr, href⟩ := reference_of_mem hb hmem (rcdataEscaper s)
      rw [hr, List.cons_append, decodeReferences, if_pos rfl, href]
      exact congrArg _ hrest
    · rw [hself, List.singleton_append, decodeReferences, if_neg hamp, hrest]

/-- Line breaks are not escaped, and nothing else is written as one. -/
theorem lineFeedsFrom_rcdata {s : Bytes} (hs : 0 ∉ s) (afterReturn : Bool) (rest : Bytes) :
    ∃ afterReturn', lineFeedsFrom afterReturn (rcdataEscaper s ++ rest) =
      rcdataEscaper (lineFeedsFrom afterReturn s) ++ lineFeedsFrom afterReturn' rest := by
  induction s generalizing afterReturn with
  | nil => exact ⟨afterReturn, rfl⟩
  | cons b s ih =>
    rw [List.mem_cons, not_or] at hs
    rw [rcdataEscaper_cons, List.append_assoc, lineFeedsFrom]
    rcases rcdataByte_cases (Ne.symm hs.1) with ⟨_, hne, h10, h13, hplain⟩ | ⟨hself, _, _⟩
    · obtain ⟨last, hlast⟩ := ih hs.2 false
      refine ⟨last, ?_⟩
      rw [lineFeedsFrom_append (fun c hc => ⟨(hplain c hc).1, (hplain c hc).2.1⟩) hne, hlast,
        if_neg h13, if_neg fun h => h10 h.1, rcdataEscaper_cons, List.append_assoc]
    · rw [hself, List.singleton_append, lineFeedsFrom]
      by_cases h13 : b = 13
      · obtain ⟨last, hlast⟩ := ih hs.2 true
        have hbreak : rcdataByte 10 = [10] := rfl
        refine ⟨last, ?_⟩
        rw [if_pos h13, if_pos h13, hlast, rcdataEscaper_cons, hbreak]
        rfl
      · obtain ⟨last, hlast⟩ := ih hs.2 false
        refine ⟨last, ?_⟩
        rw [if_neg h13, if_neg h13]
        by_cases hskip : b = 10 ∧ afterReturn = true
        · rw [if_pos hskip, if_pos hskip, hlast]
        · rw [if_neg hskip, if_neg hskip, hlast, rcdataEscaper_cons, hself]
          rfl

/-! ### Text areas -/

/-- The name under which a control is submitted. -/
def controlName (t : Tag) : Option Bytes := t.attributes.lookup (ascii "name")

def firstTag : List Token → Option Tag
  | .tag t :: _ => some t
  | _ => none

def textAreaEnd : Bytes := ascii "</textarea>"

/-- A text area with this start tag, whose content is written by a template. -/
def textArea (start text : Bytes) : Bytes := start ++ (rcdataEscaper text ++ textAreaEnd)

/-- A line feed behind the start tag is not part of the content. -/
def dropLineFeed (s : Bytes) : Bytes := if s.head? = some 10 then s.tail else s

/-- The content up to the end tag. -/
def content : Bytes → Bytes
  | [] => []
  | b :: s => if textAreaEnd.isPrefixOf (b :: s) then [] else b :: content s

/-- The name and the value of a text area with this start tag. -/
def readTextArea (start html : Bytes) : Option (Bytes × Bytes) :=
  ((firstTag (tokenize start)).bind controlName).bind fun name =>
    (dropPrefix start (lineFeeds html)).map fun s =>
      let raw := content (dropLineFeed s)
      (name, lineFeeds (decodeReferences raw.length raw))

theorem lt_not_mem_rcdata {s : Bytes} (hs : 0 ∉ s) : 60 ∉ rcdataEscaper s := by
  intro hmem
  obtain ⟨b, hb, hlt⟩ := List.mem_flatMap.mp hmem
  have hne : b ≠ 0 := by
    rintro rfl
    exact hs hb
  rcases rcdataByte_cases hne with ⟨_, _, _, _, hplain⟩ | ⟨hself, _, h60⟩
  · exact (hplain 60 hlt).2.2 rfl
  · rw [hself, List.mem_singleton] at hlt
    exact h60 hlt.symm

theorem content_append {s : Bytes} (hs : 60 ∉ s) : content (s ++ textAreaEnd) = s := by
  induction s with
  | nil => rfl
  | cons b s ih =>
    rw [List.mem_cons, not_or] at hs
    have hno : ¬textAreaEnd.isPrefixOf (b :: (s ++ textAreaEnd)) = true := by
      rw [List.isPrefixOf_iff_prefix]
      intro h
      exact hs.1 (List.cons_prefix_cons.mp h).1
    rw [List.cons_append, content, if_neg hno, ih hs.2]

theorem dropLineFeed_of_head {s : Bytes} (hs : s.head? ≠ some 10) : dropLineFeed s = s := if_neg hs

theorem dropLineFeed_rcdata {s : Bytes} (hs : 0 ∉ s) (rest : Bytes) (hrest : rest.head? ≠ some 10) :
    dropLineFeed (rcdataEscaper s ++ rest) = rcdataEscaper (dropLineFeed s) ++ rest := by
  cases s with
  | nil => exact dropLineFeed_of_head hrest
  | cons b s =>
    rw [List.mem_cons, not_or] at hs
    by_cases hb : b = 10
    · rw [hb]
      rfl
    · have hhead : (rcdataEscaper (b :: s) ++ rest).head? ≠ some 10 := by
        rw [rcdataEscaper_cons, List.append_assoc]
        rcases rcdataByte_cases (Ne.symm hs.1) with ⟨_, hne, _, _, hplain⟩ | ⟨hself, _, _⟩
        · obtain ⟨c, r, hcr⟩ := List.exists_cons_of_ne_nil hne
          rw [hcr, List.cons_append, List.head?_cons, Ne, Option.some.injEq]
          exact (hplain c (by rw [hcr]; exact List.mem_cons_self)).1
        · rw [hself, List.singleton_append, List.head?_cons, Ne, Option.some.injEq]
          exact hb
      have hfirst : (b :: s).head? ≠ some 10 := fun h => hb (Option.some.inj h)
      rw [dropLineFeed_of_head hhead, dropLineFeed_of_head hfirst]

theorem mem_lineFeedsFrom {afterReturn : Bool} {s : Bytes} {b : UInt8}
    (hb : b ∈ lineFeedsFrom afterReturn s) : b = 10 ∨ b ∈ s := by
  induction s generalizing afterReturn with
  | nil => exact absurd hb List.not_mem_nil
  | cons c s ih =>
    rw [lineFeedsFrom] at hb
    split at hb
    · rcases List.mem_cons.mp hb with hb | hb
      · exact Or.inl hb
      · exact (ih hb).imp_right (List.mem_cons_of_mem c)
    · split at hb
      · exact (ih hb).imp_right (List.mem_cons_of_mem c)
      · rcases List.mem_cons.mp hb with hb | hb
        · exact Or.inr (hb ▸ List.mem_cons_self)
        · exact (ih hb).imp_right (List.mem_cons_of_mem c)

theorem mem_dropLineFeed {s : Bytes} {b : UInt8} (hb : b ∈ dropLineFeed s) : b ∈ s := by
  rw [dropLineFeed] at hb
  split at hb
  · exact List.mem_of_mem_tail hb
  · exact hb

theorem length_le_rcdata {s : Bytes} (hs : 0 ∉ s) : s.length ≤ (rcdataEscaper s).length := by
  induction s with
  | nil => exact le_rfl
  | cons b s ih =>
    rw [List.mem_cons, not_or] at hs
    have hne : rcdataByte b ≠ [] := by
      rcases rcdataByte_cases (Ne.symm hs.1) with ⟨_, hne, _⟩ | ⟨hself, _⟩
      · exact hne
      · rw [hself]
        simp
    have hpos := List.length_pos_iff.mpr hne
    have hrest := ih hs.2
    rw [rcdataEscaper_cons, List.length_append, List.length_cons]
    omega

/-- **What a text area shows** is the text with line feeds, without one at its start. -/
theorem readTextArea_textArea {start name text : Bytes}
    (hname : (firstTag (tokenize start)).bind controlName = some name)
    (hstart : ∀ b ∈ start, b ≠ 10 ∧ b ≠ 13) (hne : start ≠ []) (htext : 0 ∉ text) :
    readTextArea start (textArea start text) = some (name, dropLineFeed (lineFeeds text)) := by
  have hzero : 0 ∉ lineFeeds text := fun h =>
    (mem_lineFeedsFrom h).elim (by decide) htext
  have hzero' : 0 ∉ dropLineFeed (lineFeeds text) := fun h => hzero (mem_dropLineFeed h)
  have hend (afterReturn : Bool) : lineFeedsFrom afterReturn textAreaEnd = textAreaEnd := by
    cases afterReturn <;> decide
  obtain ⟨last, hlast⟩ := lineFeedsFrom_rcdata htext false textAreaEnd
  have hpage : lineFeeds (textArea start text) =
      start ++ (rcdataEscaper (lineFeeds text) ++ textAreaEnd) := by
    rw [textArea, lineFeeds, lineFeedsFrom_append hstart hne, hlast, hend]
    rfl
  have hreturn : 13 ∉ dropLineFeed (lineFeeds text) :=
    fun h => not_mem_lineFeedsFrom false text (mem_dropLineFeed h)
  rw [readTextArea, hname, Option.bind_some, hpage, dropPrefix_append, Option.map_some]
  dsimp only
  rw [dropLineFeed_rcdata hzero _ (by decide), content_append (lt_not_mem_rcdata hzero'),
    decodeReferences_rcdata hzero' (length_le_rcdata hzero'), lineFeeds_eq_self hreturn]

/-- A text whose line breaks are those of a submission. -/
def Submitted (text : Bytes) : Prop := submittedBreaks text = text

/-- Whatever is typed, it is submitted so. -/
theorem submitted_submittedBreaks (s : Bytes) : Submitted (submittedBreaks s) := by
  rw [Submitted, submittedBreaks, lineFeeds_submittedBreaks]
  rfl

/-- **A text area gives back the text**, unless it starts with a line break; that is lost. -/
theorem submittedBreaks_dropLineFeed {text : Bytes} (htext : Submitted text) :
    submittedBreaks (dropLineFeed (lineFeeds text)) =
      if [13, 10] <+: text then text.drop 2 else text := by
  have hreturn : 13 ∉ lineFeeds text := not_mem_lineFeedsFrom false text
  have hexpand : (lineFeeds text).flatMap expandByte = text := htext
  have hself : submittedBreaks (lineFeeds text) = text :=
    (submittedBreaks_lineFeeds text).trans htext
  cases hfeeds : lineFeeds text with
  | nil =>
    rw [hfeeds] at hexpand hself
    rw [← hexpand]
    rfl
  | cons b s =>
    rw [hfeeds, List.mem_cons, not_or] at hreturn
    rw [hfeeds] at hexpand hself
    by_cases hb : b = 10
    · subst hb
      have hbreak : text = 13 :: 10 :: s.flatMap expandByte := hexpand.symm
      have hstarts : [13, 10] <+: 13 :: 10 :: s.flatMap expandByte := ⟨_, rfl⟩
      rw [hbreak, if_pos hstarts]
      show (lineFeeds s).flatMap expandByte = _
      rw [lineFeeds_eq_self hreturn.2]
      rfl
    · have hplain : text = b :: s.flatMap expandByte := by
        rw [← hexpand, List.flatMap_cons, expandByte, if_neg hb]
        rfl
      have hfirst : (b :: s).head? ≠ some 10 := fun h => hb (Option.some.inj h)
      have hstarts : ¬[13, 10] <+: text := by
        rw [hplain]
        exact fun h => hreturn.1 (List.cons_prefix_cons.mp h).1
      rw [dropLineFeed_of_head hfirst, hself, if_neg hstarts]

/-! ### Text inputs -/

/-- A text input whose value is written by a template, without quotes and as the last
attribute. -/
def textInput (start value : Bytes) : Bytes := start ++ (htmlNospaceEscaper value ++ ascii ">")

/-- The name and the value of a text input; there are no line breaks in the value. -/
def readTextInput (html : Bytes) : Option (Bytes × Bytes) :=
  (firstTag (tokenize (lineFeeds html))).bind fun t =>
    (controlName t).map fun name =>
      (name, ((t.attributes.lookup (ascii "value")).getD []).filter fun b => b ≠ 10 && b ≠ 13)

/-- Every replacement in an unquoted value but the one of the zero byte is a reference. -/
theorem htmlNospaceReplacementTable_read : ∀ p ∈ htmlNospaceReplacementTable, p.1 = 0 ∨
    (p.2 = 38 :: (p.2.tail.dropLast ++ [59]) ∧
      p.2.tail.dropLast.all isReferenceByte = true ∧
      decodeReference p.2.tail.dropLast = some p.1) := by
  decide

theorem specials_escaped : ∀ b, isSpecial b = true →
    b ∈ htmlNospaceReplacementTable.map Prod.fst := by
  intro b hb
  rcases special_cases hb with rfl | rfl | rfl | rfl | rfl <;> decide

/-- **A byte of an unquoted value** is read as it was. -/
theorem tokens_escapeByte {b : UInt8} (hb : b ≠ 0) (t : Tag) (name read s : Bytes) :
    tokens (.place (.value t name none read)) (escapeByte b ++ s) =
      tokens (.place (.value t name none (read ++ [b]))) s := by
  rcases escapeByte_cases b with hmem | ⟨hself, hnot⟩
  · obtain ⟨hraw, hbytes, hdecode⟩ := (htmlNospaceReplacementTable_read _ hmem).resolve_left hb
    dsimp only at hraw hbytes hdecode
    rw [hraw, List.cons_append, List.append_assoc]
    exact tokens_reference_closed (List.all_eq_true.mp hbytes) hdecode _ s
  · have hspecial : isSpecial b = false := by
      rw [← Bool.not_eq_true]
      exact fun h => hnot (specials_escaped b h)
    have hspace : isSpace b = false := by
      rw [← Bool.not_eq_true]
      intro h
      refine hnot (mem_table_of_endsValue ?_)
      rw [endsValue, h, Bool.true_or]
    have hstep : State.step (.place (.value t name none read)) b =
        (.place (.value t name none (read ++ [b])), []) := step_unquoted hspace hspecial
    rw [hself, List.singleton_append, tokens, hstep]
    rfl

theorem tokens_htmlNospaceEscaper {value : Bytes} (hvalue : 0 ∉ value) (t : Tag)
    (name read s : Bytes) :
    tokens (.place (.value t name none read)) (htmlNospaceEscaper value ++ s) =
      tokens (.place (.value t name none (read ++ value))) s := by
  induction value generalizing read with
  | nil =>
    rw [List.append_nil]
    rfl
  | cons b value ih =>
    rw [List.mem_cons, not_or] at hvalue
    rw [htmlNospaceEscaper, List.flatMap_cons, ← htmlNospaceEscaper, List.append_assoc,
      tokens_escapeByte (Ne.symm hvalue.1), ih hvalue.2, List.append_assoc]
    rfl

/-- Nothing that is written into the value is a carriage return or a quote. -/
theorem plain_escapeByte {b c : UInt8} (hc : c ∈ escapeByte b) : c ≠ 13 ∧ c ≠ 34 ∧ c ≠ 39 := by
  have hall : ∀ p ∈ htmlNospaceReplacementTable,
      (p.2.all fun c => c ≠ 13 ∧ c ≠ 34 ∧ c ≠ 39) = true := by decide
  rcases escapeByte_cases b with hmem | ⟨hself, hnot⟩
  · exact of_decide_eq_true (List.all_eq_true.mp (hall _ hmem) c hc)
  · rw [hself, List.mem_singleton] at hc
    rw [hc]
    refine ⟨?_, ?_, ?_⟩ <;> rintro rfl <;> exact absurd hnot (by decide)

/-- **A value without quotes** ends the tag with the value as it was, an empty one too. -/
theorem tokens_unquoted {value : Bytes} (hvalue : 0 ∉ value) (t : Tag) (name s : Bytes) :
    tokens (.beforeAttributeValue t name) (htmlNospaceEscaper value ++ 62 :: s) =
      .tag (t.add name value) :: tokens (.place .data) s := by
  cases value with
  | nil => rfl
  | cons b value =>
    have hstart : tokens (.beforeAttributeValue t name)
        (htmlNospaceEscaper (b :: value) ++ 62 :: s) =
        tokens (.place (.value t name none [])) (htmlNospaceEscaper (b :: value) ++ 62 :: s) := by
      obtain ⟨c, r, hcr⟩ := List.exists_cons_of_ne_nil (escapeByte_ne_nil b)
      have hc : c ∈ escapeByte b := by
        rw [hcr]
        exact List.mem_cons_self
      obtain ⟨_, h34, h39⟩ := plain_escapeByte hc
      have hends := endsValue_escapeByte hc
      rw [endsValue, Bool.or_eq_false_iff, decide_eq_false_iff_not] at hends
      have hstep : State.step (.beforeAttributeValue t name) c =
          Place.step (.value t name none []) c := by
        rw [State.step, hends.1, if_neg Bool.false_ne_true, if_neg (not_or.mpr ⟨h34, h39⟩),
          if_neg hends.2]
      rw [htmlNospaceEscaper, List.flatMap_cons, hcr, List.cons_append, List.cons_append, tokens,
        hstep]
      rfl
    rw [hstart, tokens_htmlNospaceEscaper hvalue]
    rfl

/-- No line break is written, a replaced one neither. -/
theorem return_not_mem_escaped (value : Bytes) : 13 ∉ htmlNospaceEscaper value := by
  intro h
  obtain ⟨b, _, hb⟩ := List.mem_flatMap.mp h
  exact (plain_escapeByte hb).1 rfl

/-- **What a text input shows** is the value, when it has no line breaks. -/
theorem readTextInput_textInput {start value name : Bytes} {t : Tag}
    (hstart : ∀ s, tokenize (start ++ s) = tokens (.beforeAttributeValue t (ascii "value")) s)
    (hreturn : 13 ∉ start) (hname : controlName t = some name)
    (hvalue : ascii "value" ∉ t.attributes.map Prod.fst) (hzero : 0 ∉ value)
    (hbreaks : ∀ b ∈ value, b ≠ 10 ∧ b ≠ 13) :
    readTextInput (textInput start value) = some (name, value) := by
  have hkept : value.filter (fun b => b ≠ 10 && b ≠ 13) = value := by
    refine List.filter_eq_self.mpr fun b hb => ?_
    rw [Bool.and_eq_true, decide_eq_true_eq, decide_eq_true_eq]
    exact hbreaks b hb
  have hfeeds : 13 ∉ textInput start value := by
    rw [textInput, List.mem_append, List.mem_append, not_or, not_or]
    exact ⟨hreturn, return_not_mem_escaped value, by decide⟩
  have htag : firstTag (tokenize (textInput start value)) =
      some { t with attributes := t.attributes ++ [(ascii "value", value)] } := by
    have hend : htmlNospaceEscaper value ++ ascii ">" = htmlNospaceEscaper value ++ 62 :: [] := rfl
    rw [textInput, hstart, hend, tokens_unquoted hzero, firstTag, Tag.add, if_neg hvalue]
  have hlookup : (t.attributes ++ [(ascii "value", value)]).lookup (ascii "value") = some value := by
    have hnone : t.attributes.lookup (ascii "value") = none := by
      rw [List.lookup_eq_none_iff]
      intro p hp
      rw [bne_iff_ne]
      exact fun h => hvalue (h ▸ List.mem_map_of_mem hp)
    rw [List.lookup_append, hnone, Option.none_or, List.lookup_cons_self]
  have hname' : (t.attributes ++ [(ascii "value", value)]).lookup (ascii "name") = some name := by
    rw [List.lookup_append, show t.attributes.lookup (ascii "name") = some name from hname]
    rfl
  rw [readTextInput, lineFeeds_eq_self hfeeds, htag, Option.bind_some, controlName, hname',
    Option.map_some, hlookup, Option.getD_some, hkept]

end ShareNotes.Lib.FormControls
