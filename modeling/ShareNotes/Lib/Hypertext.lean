import ShareNotes.Lib.FormControls
import ShareNotes.Lib.HtmlReading

/-!
# What a page shows and what can be done on it

A browser turns the line breaks of a page into line feeds, reads tokens, and finds in
them the items of the page: its links, its forms with their controls, and the text of
some elements. `Shows` says what a part of a page adds to the items and how it leaves the
browser, whatever follows, and `feed` computes it for a part that is known.

A page is executed from the parts of a template: texts of the template itself, HTML that
is inserted as it is, and strings that are escaped for the place where they stand. An
escaped string is read as its characters, whatever they are.
-/

namespace ShareNotes.Lib.Hypertext

open ShareNotes.Lib.Decimal ShareNotes.Lib.HtmlForm ShareNotes.Lib.HtmlTokens
open ShareNotes.Lib.HtmlReading ShareNotes.Lib.FormControls

/-! ### Items -/

inductive Item
  | link (href : Bytes)
  | form (action : Bytes)
  | control (name value : Bytes)
  | formEnd
  | shown (element text : Bytes)
  deriving DecidableEq

/-- The elements whose text is collected. -/
def collected : List Bytes := [ascii "b", ascii "pre", ascii "textarea"]

/-- The value of an attribute, if it is there. -/
def Tag.value (t : Tag) (name : Bytes) : Bytes := (t.attributes.lookup name).getD []

/-- A text input has no line breaks. -/
def withoutBreaks (s : Bytes) : Bytes := s.filter fun b => b ≠ 10 && b ≠ 13

theorem withoutBreaks_eq_self {s : Bytes} (hs : ∀ b ∈ s, b ≠ 10 ∧ b ≠ 13) : withoutBreaks s = s := by
  refine List.filter_eq_self.mpr fun b hb => ?_
  rw [Bool.and_eq_true, decide_eq_true_eq, decide_eq_true_eq]
  exact hs b hb

/-- The item of an opening tag. -/
def tagItem (t : Tag) : List Item :=
  if t.name = ascii "a" then ((t.attributes.lookup (ascii "href")).map .link).toList
  else if t.name = ascii "form" then [.form (Tag.value t (ascii "action"))]
  else if t.name = ascii "input" then
    ((controlName t).map fun name =>
      Item.control name (withoutBreaks (Tag.value t (ascii "value")))).toList
  else []

/-- The item of an element with this start tag and text. -/
def elementItem (t : Tag) (text : Bytes) : List Item :=
  if t.name = ascii "b" then [.shown t.name text]
  else if t.name = ascii "pre" then [.shown t.name (dropLineFeed text)]
  else ((controlName t).map fun name => Item.control name (dropLineFeed text)).toList

/-- The element whose text is being collected, and its text so far. -/
abbrev Reader := Option (Tag × Bytes)

def Reader.step : Reader → Token → Reader × List Item
  | none, .char _ => (none, [])
  | some (t, text), .char b => (some (t, text ++ [b]), [])
  | r, .comment => (r, [])
  | none, .tag t =>
    if t.closing then (none, if t.name = ascii "form" then [.formEnd] else [])
    else if t.name ∈ collected then (some (t, []), [])
    else (none, tagItem t)
  | some (s, text), .tag t =>
    if t.closing then
      if t.name = s.name then (none, elementItem s text) else (some (s, text), [])
    else (some (s, text), tagItem t)

def Reader.run : Reader → List Token → Reader × List Item
  | r, [] => (r, [])
  | r, tok :: toks =>
    ((Reader.run (r.step tok).1 toks).1, (r.step tok).2 ++ (Reader.run (r.step tok).1 toks).2)

/-- The items of a page. -/
def view (page : Bytes) : List Item := (Reader.run none (tokenize (lineFeeds page))).2

theorem Reader.run_append (r : Reader) (toks toks' : List Token) :
    r.run (toks ++ toks') =
      (((r.run toks).1.run toks').1, (r.run toks).2 ++ ((r.run toks).1.run toks').2) := by
  induction toks generalizing r with
  | nil => rfl
  | cons tok toks ih =>
    rw [List.cons_append, run, run, ih]
    dsimp only
    rw [List.append_assoc]

/-- Characters belong to the element that is being read, if one is. -/
def Reader.put (r : Reader) (text : Bytes) : Reader := r.map fun p => (p.1, p.2 ++ text)

theorem Reader.run_chars (r : Reader) (cs : Bytes) : r.run (cs.map .char) = (r.put cs, []) := by
  induction cs generalizing r with
  | nil =>
    cases r with
    | none => rfl
    | some p =>
      show (some p, []) = (some (p.1, p.2 ++ []), [])
      rw [List.append_nil]
  | cons c cs ih =>
    have hstep : r.step (.char c) = (r.put [c], []) := by cases r <;> rfl
    have hput : (r.put [c]).put cs = r.put (c :: cs) := by
      cases r with
      | none => rfl
      | some p =>
        show some (p.1, p.2 ++ [c] ++ cs) = some (p.1, p.2 ++ c :: cs)
        rw [List.append_assoc]
        rfl
    rw [List.map_cons, run, hstep, ih, hput]
    rfl

/-- An opening tag of an element that is not collected. -/
theorem Reader.run_tag {t : Tag} (hclosing : t.closing = false) (hname : t.name ∉ collected) :
    Reader.run none [.tag t] = (none, tagItem t) := by
  have hstep : Reader.step none (.tag t) = (none, tagItem t) := by
    rw [Reader.step, hclosing, if_neg Bool.false_ne_true, if_neg hname]
  rw [Reader.run, hstep]
  show (none, tagItem t ++ []) = _
  rw [List.append_nil]

/-- The items of a token in an element whose text is collected. -/
def innerItems : Token → List Item
  | .tag t => if t.closing then [] else tagItem t
  | _ => []

/-- **Inside of an element** the characters are collected, up to the tag that closes it. -/
theorem Reader.run_inside {s : Tag} {toks : List Token}
    (htoks : ∀ t, .tag t ∈ toks → t.closing = true → t.name ≠ s.name) (text : Bytes) :
    Reader.run (some (s, text)) toks = (some (s, text ++ chars toks), toks.flatMap innerItems) := by
  induction toks generalizing text with
  | nil =>
    show (some (s, text), []) = (some (s, text ++ []), [])
    rw [List.append_nil]
  | cons tok toks ih =>
    replace ih := fun text => ih (fun t ht => htoks t (List.mem_cons_of_mem _ ht)) text
    cases tok with
    | char b =>
      have hstep : Reader.step (some (s, text)) (.char b) = (some (s, text ++ [b]), []) := rfl
      rw [Reader.run, hstep, ih, List.append_assoc]
      rfl
    | comment =>
      have hstep : Reader.step (some (s, text)) .comment = (some (s, text), []) := rfl
      rw [Reader.run, hstep, ih]
      rfl
    | tag t =>
      have hstep : Reader.step (some (s, text)) (.tag t) =
          (some (s, text), innerItems (.tag t)) := by
        rw [Reader.step, innerItems]
        cases hclosing : t.closing with
        | true =>
          rw [if_pos rfl, if_pos rfl, if_neg (htoks t List.mem_cons_self hclosing)]
        | false => rw [if_neg Bool.false_ne_true, if_neg Bool.false_ne_true]
      rw [Reader.run, hstep, ih]
      rfl

/-- These items are those of the markup. -/
theorem innerItems_markup (toks : List Token) :
    (toks.filter isMarkup).flatMap innerItems = toks.flatMap innerItems := by
  induction toks with
  | nil => rfl
  | cons tok toks ih =>
    rw [List.flatMap_cons, ← ih]
    cases tok <;> rfl

/-! ### Forms -/

/-- A form, with the names and values of its controls. -/
structure WebForm where
  action : Bytes
  controls : List (Bytes × Bytes)
  deriving DecidableEq

def formsFrom : Option WebForm → List Item → List WebForm
  | _, [] => []
  | none, .form action :: items => formsFrom (some ⟨action, []⟩) items
  | some f, .control name value :: items =>
    formsFrom (some { f with controls := f.controls ++ [(name, value)] }) items
  | some f, .formEnd :: items => f :: formsFrom none items
  | f, _ :: items => formsFrom f items

def forms (items : List Item) : List WebForm := formsFrom none items

/-- The form after something was typed into the controls of this name. -/
def WebForm.type (f : WebForm) (name value : Bytes) : WebForm :=
  { f with controls := f.controls.map fun c => if c.1 = name then (name, value) else c }

/-! ### Reading on -/

/-- Where a browser stands in a page. -/
structure Reading where
  afterReturn : Bool
  state : State
  reader : Reader

/-- The items of what follows. -/
def Reading.view (rd : Reading) (s : Bytes) : List Item :=
  (rd.reader.run (tokens rd.state (lineFeedsFrom rd.afterReturn s))).2

/-- Between two tags, with no element being collected. -/
def Reading.start : Reading := ⟨false, .place .data, none⟩

/-- From `rd` on, `s` adds these items, and what follows it is read from `rd'` on. -/
def Shows (rd : Reading) (s : Bytes) (items : List Item) (rd' : Reading) : Prop :=
  ∀ rest, rd.view (s ++ rest) = items ++ rd'.view rest

theorem Shows.append {rd rd' rd'' : Reading} {s s' : Bytes} {items items' : List Item}
    (h : Shows rd s items rd') (h' : Shows rd' s' items' rd'') :
    Shows rd (s ++ s') (items ++ items') rd'' := by
  intro rest
  rw [List.append_assoc, h, h', List.append_assoc]

theorem shows_nil (rd : Reading) : Shows rd [] [] rd := fun _ => rfl

/-- Line breaks, tokens and items, one after another. -/
theorem shows_of_reads {f f' : Bool} {st st' : State} {r r' : Reader} {s s' : Bytes}
    {toks : List Token} {items : List Item}
    (hfeeds : ∀ rest, lineFeedsFrom f (s ++ rest) = s' ++ lineFeedsFrom f' rest)
    (hreads : Reads st s' toks st') (hrun : r.run toks = (r', items)) :
    Shows ⟨f, st, r⟩ s items ⟨f', st', r'⟩ := by
  intro rest
  show (r.run (tokens st (lineFeedsFrom f (s ++ rest)))).2 = _
  rw [hfeeds, hreads, Reader.run_append, hrun]
  rfl

/-! ### Known parts -/

/-- One byte, with the carriage return before a line feed in mind. -/
def Reading.put (rd : Reading) (afterReturn : Bool) (b : UInt8) : Reading × List Item :=
  (⟨afterReturn, (rd.state.step b).1, (rd.reader.run (rd.state.step b).2).1⟩,
    (rd.reader.run (rd.state.step b).2).2)

def Reading.step (rd : Reading) (b : UInt8) : Reading × List Item :=
  if b = 13 then rd.put true 10
  else if b = 10 ∧ rd.afterReturn then ({ rd with afterReturn := false }, [])
  else rd.put false b

/-- What a part does, computed. -/
def feed : Reading → Bytes → Reading × List Item
  | rd, [] => (rd, [])
  | rd, b :: s => ((feed (rd.step b).1 s).1, (rd.step b).2 ++ (feed (rd.step b).1 s).2)

theorem shows_put (rd : Reading) {f : Bool} {b c : UInt8}
    (hfeeds : ∀ rest, lineFeedsFrom rd.afterReturn (b :: rest) = c :: lineFeedsFrom f rest) :
    Shows rd [b] (rd.put f c).2 (rd.put f c).1 := by
  have hone : ∀ rest, lineFeedsFrom rd.afterReturn ([b] ++ rest) = [c] ++ lineFeedsFrom f rest := hfeeds
  exact shows_of_reads hone (reads_step rfl) rfl

theorem shows_step (rd : Reading) (b : UInt8) : Shows rd [b] (rd.step b).2 (rd.step b).1 := by
  rw [Reading.step]
  split
  · rename_i hb
    refine shows_put rd fun rest => ?_
    rw [lineFeedsFrom, if_pos hb]
  · rename_i hb
    split
    · rename_i hskip
      intro rest
      show (rd.reader.run (tokens rd.state (lineFeedsFrom rd.afterReturn (b :: rest)))).2 = _
      rw [lineFeedsFrom, if_neg hb, if_pos hskip]
      rfl
    · rename_i hplain
      refine shows_put rd fun rest => ?_
      rw [lineFeedsFrom, if_neg hb, if_neg hplain]

theorem shows_feed (rd : Reading) (s : Bytes) : Shows rd s (feed rd s).2 (feed rd s).1 := by
  induction s generalizing rd with
  | nil => exact shows_nil rd
  | cons b s ih => exact (shows_step rd b).append (ih _)

/-- **A part that is known** is fed to the browser. -/
theorem shows_of_feed {rd rd' : Reading} {s : Bytes} {items : List Item}
    (h : feed rd s = (rd', items)) : Shows rd s items rd' := by
  have hshows := shows_feed rd s
  rw [h] at hshows
  exact hshows

deriving instance DecidableEq for Place
deriving instance DecidableEq for State
deriving instance DecidableEq for Reading

/-! ### Escaped strings -/

/-- Whether what follows stands behind a carriage return. -/
def returnAfter (afterReturn : Bool) : Bytes → Bool
  | [] => afterReturn
  | b :: s => returnAfter (b = 13) s

theorem lineFeedsFrom_append' (f : Bool) (s rest : Bytes) :
    lineFeedsFrom f (s ++ rest) = lineFeedsFrom f s ++ lineFeedsFrom (returnAfter f s) rest := by
  induction s generalizing f with
  | nil => rfl
  | cons b s ih =>
    rw [List.cons_append, lineFeedsFrom, lineFeedsFrom, returnAfter]
    by_cases h13 : b = 13
    · rw [if_pos h13, if_pos h13, decide_eq_true h13, ih]
      rfl
    · rw [if_neg h13, if_neg h13, decide_eq_false h13]
      split
      · exact ih false
      · rw [ih]
        rfl

/-- The zero byte is written as the replacement character. -/
def replaceZero (s : Bytes) : Bytes := s.flatMap fun b => if b = 0 then [0xEF, 0xBF, 0xBD] else [b]

theorem replaceZero_eq_self {s : Bytes} (hs : 0 ∉ s) : replaceZero s = s := by
  induction s with
  | nil => rfl
  | cons b s ih =>
    rw [List.mem_cons, not_or] at hs
    rw [replaceZero, List.flatMap_cons, if_neg (Ne.symm hs.1)]
    exact congrArg (b :: ·) (ih hs.2)

/-- A byte is replaced by bytes that are no line breaks, or stays. -/
theorem rcdataByte_feeds (b : UInt8) :
    (b ≠ 10 ∧ b ≠ 13 ∧ rcdataByte b ≠ [] ∧ ∀ c ∈ rcdataByte b, c ≠ 10 ∧ c ≠ 13) ∨
      rcdataByte b = [b] := by
  by_cases hb : b = 0
  · rw [hb]
    exact Or.inl (by decide +kernel)
  · rcases rcdataByte_cases hb with ⟨_, hne, h10, h13, hplain⟩ | ⟨hself, _⟩
    · exact Or.inl ⟨h10, h13, hne, fun c hc => ⟨(hplain c hc).1, (hplain c hc).2.1⟩⟩
    · exact Or.inr hself

/-- Line breaks are not escaped. -/
theorem lineFeedsFrom_escaped (f : Bool) (s : Bytes) :
    lineFeedsFrom f (rcdataEscaper s) = rcdataEscaper (lineFeedsFrom f s) := by
  induction s generalizing f with
  | nil => rfl
  | cons b s ih =>
    rw [rcdataEscaper_cons]
    rcases rcdataByte_feeds b with ⟨h10, h13, hne, hplain⟩ | hself
    · rw [lineFeedsFrom_append hplain hne, ih, lineFeedsFrom, if_neg h13, if_neg fun h => h10 h.1,
        rcdataEscaper_cons]
    · rw [hself, List.singleton_append, lineFeedsFrom, lineFeedsFrom]
      by_cases h13 : b = 13
      · rw [if_pos h13, if_pos h13, ih]
        rfl
      · rw [if_neg h13, if_neg h13]
        split
        · exact ih false
        · rw [ih, rcdataEscaper_cons, hself]
          rfl

/-- The places where every byte that is not special is just a character. -/
inductive Roomy : Place → Prop
  | data : Roomy .data
  | quoted (t : Tag) (name read : Bytes) : Roomy (.value t name (some 34) read)

theorem Roomy.put {p : Place} (hp : Roomy p) (b : UInt8) : Roomy (p.put b).1 := by
  cases hp with
  | data => exact .data
  | quoted t name read => exact .quoted t name (read ++ [b])

theorem Roomy.step {p : Place} (hp : Roomy p) {b : UInt8} (hb : isSpecial b = false) :
    p.step b = (.place (p.put b).1, (p.put b).2) := by
  cases hp with
  | data =>
    rw [Place.step, if_neg (ne_of_not_special hb rfl)]
    exact if_neg (ne_of_not_special hb rfl)
  | quoted t name read =>
    rw [Place.step, if_neg (ne_of_not_special hb rfl)]
    exact if_neg (ne_of_not_special hb rfl)

/-- Every replacement but the one of the zero byte is a reference. -/
theorem htmlReplacementTable_read : ∀ p ∈ htmlReplacementTable, p.1 = 0 ∨
    (p.2 = 38 :: (p.2.tail.dropLast ++ [59]) ∧ p.2.tail.dropLast.all isReferenceByte = true ∧
      decodeReference p.2.tail.dropLast = some p.1) := by
  decide

/-- What is put somewhere comes behind what was put before. -/
theorem foldl_put (p : Place) (toks : List Token) (s : Bytes) :
    s.foldl (fun r b => ((r.1.put b).1, r.2 ++ (r.1.put b).2)) (p, toks) =
      ((p.putAll s).1, toks ++ (p.putAll s).2) := by
  induction s generalizing p toks with
  | nil =>
    rw [List.foldl_nil, Place.putAll, List.foldl_nil, List.append_nil]
  | cons b s ih =>
    have hput : p.putAll (b :: s) = _ := ih (p.put b).1 ([] ++ (p.put b).2)
    rw [List.foldl_cons, ih, hput, List.nil_append, List.append_assoc]

theorem putAll_cons (p : Place) (b : UInt8) (s : Bytes) :
    p.putAll (b :: s) =
      ((Place.putAll (p.put b).1 s).1, (p.put b).2 ++ (Place.putAll (p.put b).1 s).2) :=
  foldl_put (p.put b).1 (p.put b).2 s

theorem putAll_append (p : Place) (s s' : Bytes) :
    p.putAll (s ++ s') =
      ((Place.putAll (p.putAll s).1 s').1, (p.putAll s).2 ++ (Place.putAll (p.putAll s).1 s').2) := by
  rw [Place.putAll, List.foldl_append]
  exact foldl_put (p.putAll s).1 (p.putAll s).2 s'

/-- A plain byte at a roomy place. -/
theorem Roomy.reads {p : Place} (hp : Roomy p) {s : Bytes} (hs : ∀ b ∈ s, isSpecial b = false) :
    Reads (.place p) s (p.putAll s).2 (.place (p.putAll s).1) := by
  induction s generalizing p with
  | nil => exact fun _ => rfl
  | cons b s ih =>
    rw [List.forall_mem_cons] at hs
    have hstep : State.step (.place p) b = (.place (p.put b).1, (p.put b).2) := hp.step hs.1
    rw [putAll_cons]
    exact (reads_step hstep).append (ih (hp.put b) hs.2)

theorem Roomy.putAll {p : Place} (hp : Roomy p) (s : Bytes) : Roomy (p.putAll s).1 := by
  induction s generalizing p with
  | nil => exact hp
  | cons b s ih =>
    rw [putAll_cons]
    exact ih (hp.put b)

theorem Roomy.reads_byte {p : Place} (hp : Roomy p) (b : UInt8) :
    Reads (.place p) (rcdataByte b) (p.putAll (replaceZero [b])).2
      (.place (p.putAll (replaceZero [b])).1) := by
  by_cases hb : b = 0
  · have hsame : rcdataByte 0 = replaceZero [0] := by decide +kernel
    rw [hb, hsame]
    exact hp.reads (by decide +kernel)
  · have hself : replaceZero [b] = [b] := replaceZero_eq_self (by simpa using Ne.symm hb)
    rw [hself]
    rcases replacement_cases htmlReplacementTable b with hmem | ⟨hsame, hnot⟩
    · obtain ⟨hraw, hbytes, hdecode⟩ := (htmlReplacementTable_read _ hmem).resolve_left hb
      have hput : p.putAll [b] = p.put b := rfl
      intro rest
      dsimp only at hraw hbytes hdecode
      rw [rcdataByte, hraw, List.cons_append, List.append_assoc, hput]
      exact tokens_reference_closed (List.all_eq_true.mp hbytes) hdecode p rest
    · have hspecial : isSpecial b = false := by
        rw [← Bool.not_eq_true]
        intro h
        rcases special_cases h with rfl | rfl | rfl | rfl | rfl <;> exact hnot (by decide)
      rw [rcdataByte, hsame]
      exact hp.reads (by simpa using hspecial)

theorem Roomy.reads_escaped {p : Place} (hp : Roomy p) (s : Bytes) :
    Reads (.place p) (rcdataEscaper s) (p.putAll (replaceZero s)).2
      (.place (p.putAll (replaceZero s)).1) := by
  induction s generalizing p with
  | nil => exact fun _ => rfl
  | cons b s ih =>
    have hsplit : replaceZero (b :: s) = replaceZero [b] ++ replaceZero s := by
      simp [replaceZero]
    rw [rcdataEscaper_cons, hsplit, putAll_append]
    exact (hp.reads_byte b).append (ih (hp.putAll _))

/-- **An escaped string in a text** is read as its characters. -/
theorem shows_escaped (f : Bool) (r : Reader) (s : Bytes) :
    Shows ⟨f, .place .data, r⟩ (rcdataEscaper s) []
      ⟨returnAfter f (rcdataEscaper s), .place .data, r.put (replaceZero (lineFeedsFrom f s))⟩ := by
  have hreads := Roomy.data.reads_escaped (lineFeedsFrom f s)
  rw [putAll_data] at hreads
  refine shows_of_reads (fun rest => ?_) hreads (r.run_chars _)
  rw [lineFeedsFrom_append', lineFeedsFrom_escaped]

theorem returnAfter_eq_false {s : Bytes} (hs : 13 ∉ s) : returnAfter false s = false := by
  induction s with
  | nil => rfl
  | cons b s ih =>
    rw [List.mem_cons, not_or] at hs
    rw [returnAfter, decide_eq_false (Ne.symm hs.1), ih hs.2]

/-- A string without line breaks and zero bytes in a quoted value. -/
theorem shows_quoted {s : Bytes} (hs : ∀ b ∈ s, b ≠ 0 ∧ b ≠ 10 ∧ b ≠ 13) (t : Tag)
    (name read : Bytes) (r : Reader) :
    Shows ⟨false, .place (.value t name (some 34) read), r⟩ (rcdataEscaper s) []
      ⟨returnAfter false (rcdataEscaper s), .place (.value t name (some 34) (read ++ s)), r⟩ := by
  have hfeeds : lineFeedsFrom false s = s := lineFeeds_eq_self fun h => (hs 13 h).2.2 rfl
  have hzero : replaceZero s = s := replaceZero_eq_self fun h => (hs 0 h).1 rfl
  have hreads := (Roomy.quoted t name read).reads_escaped s
  rw [hzero, putAll_value] at hreads
  refine shows_of_reads (fun rest => ?_) hreads rfl
  rw [lineFeedsFrom_append', lineFeedsFrom_escaped, hfeeds]

/-! ### Values without quotes -/

theorem shows_feedless {st st' : State} {r r' : Reader} {s : Bytes} {toks : List Token}
    {items : List Item} (hs : 13 ∉ s) (hreads : Reads st s toks st') (hrun : r.run toks = (r', items)) :
    Shows ⟨false, st, r⟩ s items ⟨false, st', r'⟩ := by
  refine shows_of_reads (fun rest => ?_) hreads hrun
  have hfeeds : lineFeedsFrom false s = s := lineFeeds_eq_self hs
  rw [lineFeedsFrom_append', hfeeds, returnAfter_eq_false hs]

/-- An escaped value starts, also with a reference. -/
theorem nospace_start {value : Bytes} (hne : value ≠ []) {t : Tag} {name : Bytes}
    {toks : List Token} {st' : State}
    (h : Reads (.place (.value t name none [])) (htmlNospaceEscaper value) toks st') :
    Reads (.beforeAttributeValue t name) (htmlNospaceEscaper value) toks st' := by
  obtain ⟨b, value, rfl⟩ := List.exists_cons_of_ne_nil hne
  have hescaped : htmlNospaceEscaper (b :: value) = escapeByte b ++ htmlNospaceEscaper value :=
    List.flatMap_cons
  refine reads_start ?_ (fun c hc => ?_) h
  · rw [hescaped]
    exact List.append_ne_nil_of_left_ne_nil (escapeByte_ne_nil b) _
  · have hmem : c ∈ escapeByte b := by
      rw [hescaped, List.head?_append_of_ne_nil _ (escapeByte_ne_nil b)] at hc
      exact List.mem_of_mem_head? hc
    have hends := endsValue_escapeByte hmem
    rw [endsValue, Bool.or_eq_false_iff, decide_eq_false_iff_not] at hends
    exact ⟨hends.1, hends.2, (plain_escapeByte hmem).2⟩

/-- A value with another attribute behind it. -/
theorem shows_nospace {value : Bytes} (hne : value ≠ []) (hzero : 0 ∉ value) (t : Tag)
    (name : Bytes) (r : Reader) :
    Shows ⟨false, .beforeAttributeValue t name, r⟩ (htmlNospaceEscaper value) []
      ⟨false, .place (.value t name none value), r⟩ := by
  have hreads : Reads (.beforeAttributeValue t name) (htmlNospaceEscaper value) []
      (.place (.value t name none value)) :=
    nospace_start hne fun rest => tokens_htmlNospaceEscaper hzero t name [] rest
  exact shows_feedless (return_not_mem_escaped value) hreads rfl

/-- **A value at the end of its tag**, whatever it is, is the value that was written unless
there is a zero byte in it. -/
theorem reads_nospace (value : Bytes) (t : Tag) (name : Bytes) :
    ∃ v, (0 ∉ value → v = value) ∧
      Reads (.beforeAttributeValue t name) (htmlNospaceEscaper value ++ [62]) [.tag (t.add name v)]
        (.place .data) := by
  by_cases hzero : 0 ∈ value
  · have hspace : ∀ c ∈ htmlNospaceEscaper value, isSpace c = false ∧ c ≠ 62 := by
      intro c hc
      have hends := endsValue_escaped hc
      rw [endsValue, Bool.or_eq_false_iff, decide_eq_false_iff_not] at hends
      exact hends
    have hstart : InValue t name [] (.place (.value t name none [])) := inValue_start
    obtain ⟨st', hst', hreads⟩ := hstart.reads (fun c hc => (hspace c hc).1)
      fun c hc => (hspace c hc).2
    obtain ⟨v, hcloses⟩ := hst'.closes
    exact ⟨v, fun h => absurd hzero h,
      (nospace_start (List.ne_nil_of_mem hzero) hreads).append hcloses⟩
  · refine ⟨value, fun _ => rfl, fun rest => ?_⟩
    rw [List.append_assoc]
    exact tokens_unquoted hzero t name rest

/-! ### Templates -/

/-- A part of a template, with its action evaluated: a text of the template, a value of a
type that is HTML, or a string, in a text or a quoted value or in a value without quotes. -/
inductive Node
  | text (s : Bytes)
  | html (s : Bytes)
  | escaped (s : Bytes)
  | nospace (s : Bytes)

def Node.write : Node → Bytes
  | .text s => s
  | .html s => s
  | .escaped s => rcdataEscaper s
  | .nospace s => htmlNospaceEscaper s

def execute : List Node → Bytes
  | [] => []
  | node :: nodes => node.write ++ execute nodes

theorem execute_append (nodes nodes' : List Node) :
    execute (nodes ++ nodes') = execute nodes ++ execute nodes' := by
  induction nodes with
  | nil => rfl
  | cons node nodes ih =>
    rw [List.cons_append, execute, execute, ih, List.append_assoc]

/-- Nodes one after another. -/
theorem Shows.node {rd rd' rd'' : Reading} {node : Node} {nodes : List Node}
    {items items' : List Item} (h : Shows rd node.write items rd')
    (h' : Shows rd' (execute nodes) items' rd'') :
    Shows rd (execute (node :: nodes)) (items ++ items') rd'' :=
  h.append h'

theorem Shows.nodes {rd rd' rd'' : Reading} {nodes nodes' : List Node}
    {items items' : List Item} (h : Shows rd (execute nodes) items rd')
    (h' : Shows rd' (execute nodes') items' rd'') :
    Shows rd (execute (nodes ++ nodes')) (items ++ items') rd'' := by
  rw [execute_append]
  exact h.append h'

/-- Two nodes that are read together. -/
theorem Shows.twoNodes {rd rd' rd'' : Reading} {node node' : Node} {nodes : List Node}
    {items items' : List Item} (h : Shows rd (node.write ++ node'.write) items rd')
    (h' : Shows rd' (execute nodes) items' rd'') :
    Shows rd (execute (node :: node' :: nodes)) (items ++ items') rd'' := by
  have happend := h.append h'
  rw [List.append_assoc] at happend
  exact happend

/-- A text of the template, and one that stands behind an inserted string. -/
theorem shows_text {st : State} {s : Bytes} (items : List Item) (st' : State) (r' : Reader)
    (h : feed ⟨false, st, none⟩ s = (⟨false, st', r'⟩, items)) :
    Shows ⟨false, st, none⟩ (Node.text s).write items ⟨false, st', r'⟩ :=
  shows_of_feed h

theorem shows_textBehind {st : State} {s : Bytes} (items : List Item) (st' : State) (r' : Reader)
    (h : ∀ f, feed ⟨f, st, none⟩ s = (⟨false, st', r'⟩, items)) (f : Bool) :
    Shows ⟨f, st, none⟩ (Node.text s).write items ⟨false, st', r'⟩ :=
  shows_of_feed (h f)

/-- A text of the template without tags. -/
theorem shows_plain {s : Bytes} (hs : (s.all fun b => b ≠ 60 && b ≠ 38 && b ≠ 13) = true) :
    Shows .start (Node.text s).write [] .start := by
  have hall : ∀ b ∈ s, b ≠ 60 ∧ b ≠ 38 ∧ b ≠ 13 := by
    intro b hb
    have hb' := List.all_eq_true.mp hs b hb
    rw [Bool.and_eq_true, Bool.and_eq_true, decide_eq_true_eq, decide_eq_true_eq,
      decide_eq_true_eq] at hb'
    exact ⟨hb'.1.1, hb'.1.2, hb'.2⟩
  have hreads := reads_plain (fun b hb => (hall b hb).1) fun b hb => (hall b hb).2.1
  exact shows_feedless (fun h => (hall 13 h).2.2 rfl) hreads (Reader.run_chars none s)

/-! ### Tags with an inserted value -/

/-- The attributes in the rest of a tag, behind the value of its first one, which `c` ends. -/
def restOfTag (c : UInt8) (name key s : Bytes) : Option (List (Bytes × Bytes)) :=
  (tagEnd (.beforeAttributeName ⟨false, name, [(key, [])]⟩) s.tail).bind fun t =>
    if s = c :: s.tail ∧ t = ⟨false, name, (key, []) :: t.attributes.tail⟩ ∧ 13 ∉ s.tail then
      some t.attributes.tail
    else none

/-- **The tag around an inserted value.** -/
theorem shows_tagEnd {c : UInt8} {name key s : Bytes} {as : List (Bytes × Bytes)}
    (h : restOfTag c name key s = some as) (hname : name ∉ collected) (hc : c ≠ 10 ∧ c ≠ 13)
    {st : State} {v : Bytes}
    (hst : st.step c = (.beforeAttributeName ⟨false, name, [(key, v)]⟩, [])) (f : Bool) :
    Shows ⟨f, st, none⟩ (Node.text s).write (tagItem ⟨false, name, (key, v) :: as⟩) .start := by
  obtain ⟨t, hend, hif⟩ := Option.bind_eq_some_iff.mp h
  obtain ⟨⟨hs, ht, h13⟩, hsome⟩ := Option.ite_none_right_eq_some.mp hif
  obtain rfl := Option.some.inj hsome
  have hreads := reads_tagEnd hend v
  have hset : setValue v t = ⟨false, name, (key, v) :: t.attributes.tail⟩ := by
    rw [ht]
    rfl
  have hrun := Reader.run_tag (t := ⟨false, name, (key, v) :: t.attributes.tail⟩) rfl hname
  have hfirst : Shows ⟨f, st, none⟩ [c] []
      ⟨false, .beforeAttributeName ⟨false, name, [(key, v)]⟩, none⟩ := by
    refine shows_of_feed ?_
    rw [feed, Reading.step, if_neg hc.2, if_neg fun h => hc.1 h.1, Reading.put, hst]
    rfl
  rw [hset] at hreads
  show Shows _ s _ _
  rw [hs]
  exact hfirst.append (shows_feedless h13 hreads hrun)

/-- A value without quotes at the end of its tag. -/
theorem shows_nospaceEnd (value : Bytes) {t : Tag} (hclosing : t.closing = false)
    (hname : t.name ∉ collected) (key : Bytes) :
    ∃ v, (0 ∉ value → v = value) ∧ Shows ⟨false, .beforeAttributeValue t key, none⟩
      ((Node.nospace value).write ++ (Node.text (ascii ">")).write) (tagItem (t.add key v)) .start := by
  obtain ⟨v, hv, hreads⟩ := reads_nospace value t key
  have hsame : (t.add key v).closing = false ∧ (t.add key v).name = t.name := by
    rw [Tag.add]
    split <;> exact ⟨hclosing, rfl⟩
  have hrun := Reader.run_tag hsame.1 (hsame.2 ▸ hname)
  have hreturn : 13 ∉ htmlNospaceEscaper value ++ [62] := by
    rw [List.mem_append, not_or]
    exact ⟨return_not_mem_escaped value, by decide⟩
  exact ⟨v, hv, shows_feedless hreturn hreads hrun⟩

/-- **The items of a page** whose last part leaves the browser where it started. -/
theorem view_of_shows {s : Bytes} {items : List Item} (h : Shows .start s items .start) :
    view s = items := by
  have hview := h []
  rw [List.append_nil] at hview
  exact hview.trans (List.append_nil items)

end ShareNotes.Lib.Hypertext
