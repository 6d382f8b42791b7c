import ShareNotes.Lib.HtmlForm

/-!
# Reading HTML

The tokenizer of HTML as a state machine over bytes: characters, tags with their
attributes, and comments, with character references replaced where they are read.
Of the references, those to an ASCII character by its decimal number and the five
names of the special characters are known. Declarations and processing
instructions are read as comments, and a slash in a tag as a blank.

An `Escaper` writes each special byte as a reference. What it writes is read back
as plain characters in a text (`tokens_escape`) and in an unquoted attribute value
(`tokens_escape_value`), whatever the string is.
-/

namespace ShareNotes.Lib.HtmlTokens

open ShareNotes.Lib.Decimal ShareNotes.Lib.HtmlForm

structure Tag where
  closing : Bool
  name : Bytes
  attributes : List (Bytes × Bytes)
  deriving DecidableEq

/-- A second attribute of one name is dropped. -/
def Tag.add (t : Tag) (name value : Bytes) : Tag :=
  if name ∈ t.attributes.map Prod.fst then t
  else { t with attributes := t.attributes ++ [(name, value)] }

inductive Token
  | char (b : UInt8)
  | tag (t : Tag)
  | comment
  deriving DecidableEq

/-! ### The state machine -/

/-- Where characters are collected: in the text, or in the value of an attribute that
is in these quotes or in none. -/
inductive Place
  | data
  | value (t : Tag) (name : Bytes) (quote : Option UInt8) (read : Bytes)

inductive State
  | place (p : Place)
  | reference (p : Place) (raw : Bytes)
  | tagOpen
  | endTagOpen
  | bogusComment
  | tagName (t : Tag)
  | beforeAttributeName (t : Tag)
  | attributeName (t : Tag) (name : Bytes)
  | afterAttributeName (t : Tag) (name : Bytes)
  | beforeAttributeValue (t : Tag) (name : Bytes)

def isAlpha (b : UInt8) : Bool :=
  (97 ≤ b.toNat && b.toNat ≤ 122) || (65 ≤ b.toNat && b.toNat ≤ 90)

def lower (b : UInt8) : UInt8 := if 65 ≤ b.toNat && b.toNat ≤ 90 then b + 32 else b

/-- The bytes between `&` and the semicolon of a reference. -/
def isReferenceByte (b : UInt8) : Bool := isDigit b || isAlpha b || b = 35

/-- The references by name. -/
def namedReferences : List (Bytes × UInt8) :=
  [(ascii "amp", 38), (ascii "lt", 60), (ascii "gt", 62), (ascii "quot", 34), (ascii "apos", 39)]

/-- The character of a reference. -/
def decodeReference (raw : Bytes) : Option UInt8 :=
  if raw.head? = some 35 then
    (readDigits raw.tail 0).bind fun n =>
      if raw.tail ≠ [] ∧ n < 128 then some (UInt8.ofNat n) else none
  else namedReferences.lookup raw

/-- A character that is just a character. -/
def Place.put : Place → UInt8 → Place × List Token
  | .data, b => (.data, [.char b])
  | .value t name quote read, b => (.value t name quote (read ++ [b]), [])

def Place.putAll (p : Place) (s : Bytes) : Place × List Token :=
  s.foldl (fun r b => ((r.1.put b).1, r.2 ++ (r.1.put b).2)) (p, [])

def State.finish (t : Tag) : State × List Token := (.place .data, [.tag t])

def Place.step (p : Place) (b : UInt8) : State × List Token :=
  if b = 38 then (.reference p [], [])
  else
    match p with
    | .data => if b = 60 then (.tagOpen, []) else (.place .data, [.char b])
    | .value t name (some quote) read =>
      if b = quote then (.beforeAttributeName (t.add name read), [])
      else (.place (.value t name (some quote) (read ++ [b])), [])
    | .value t name none read =>
      if isSpace b then (.beforeAttributeName (t.add name read), [])
      else if b = 62 then State.finish (t.add name read)
      else (.place (.value t name none (read ++ [b])), [])

/-- The characters of something that is no reference, and the byte behind it. -/
def Place.flush (p : Place) (s : Bytes) (b : UInt8) : State × List Token :=
  let r := p.putAll s
  ((r.1.step b).1, r.2 ++ (r.1.step b).2)

def State.step : State → UInt8 → State × List Token
  | .place p, b => p.step b
  | .reference p raw, b =>
    if isReferenceByte b then (.reference p (raw ++ [b]), [])
    else if b = 59 then
      match decodeReference raw with
      | some c => (.place (p.put c).1, (p.put c).2)
      | none => p.flush (38 :: raw) b
    else p.flush (38 :: raw) b
  | .tagOpen, b =>
    if b = 47 then (.endTagOpen, [])
    else if b = 33 ∨ b = 63 then (.bogusComment, [])
    else if isAlpha b then (.tagName ⟨false, [lower b], []⟩, [])
    else Place.flush .data [60] b
  | .endTagOpen, b =>
    if isAlpha b then (.tagName ⟨true, [lower b], []⟩, [])
    else if b = 62 then (.place .data, [])
    else (.bogusComment, [])
  | .bogusComment, b => if b = 62 then (.place .data, [.comment]) else (.bogusComment, [])
  | .tagName t, b =>
    if isSpace b ∨ b = 47 then (.beforeAttributeName t, [])
    else if b = 62 then State.finish t
    else (.tagName { t with name := t.name ++ [lower b] }, [])
  | .beforeAttributeName t, b =>
    if isSpace b ∨ b = 47 then (.beforeAttributeName t, [])
    else if b = 62 then State.finish t
    else (.attributeName t [lower b], [])
  | .attributeName t name, b =>
    if isSpace b then (.afterAttributeName t name, [])
    else if b = 47 then (.beforeAttributeName (t.add name []), [])
    else if b = 61 then (.beforeAttributeValue t name, [])
    else if b = 62 then State.finish (t.add name [])
    else (.attributeName t (name ++ [lower b]), [])
  | .afterAttributeName t name, b =>
    if isSpace b then (.afterAttributeName t name, [])
    else if b = 47 then (.beforeAttributeName (t.add name []), [])
    else if b = 61 then (.beforeAttributeValue t name, [])
    else if b = 62 then State.finish (t.add name [])
    else (.attributeName (t.add name []) [lower b], [])
  | .beforeAttributeValue t name, b =>
    if isSpace b then (.beforeAttributeValue t name, [])
    else if b = 34 ∨ b = 39 then (.place (.value t name (some b) []), [])
    else if b = 62 then State.finish (t.add name [])
    else Place.step (.value t name none []) b

/-- What is left at the end; a tag that is not finished is dropped. -/
def State.eof : State → List Token
  | .reference .data raw => (38 :: raw).map .char
  | .tagOpen => [.char 60]
  | .endTagOpen => [.char 60, .char 47]
  | .bogusComment => [.comment]
  | _ => []

/-- The tokens that are read from a state on. -/
def tokens : State → Bytes → List Token
  | st, [] => st.eof
  | st, b :: s => (st.step b).2 ++ tokens (st.step b).1 s

def tokenize (s : Bytes) : List Token := tokens (.place .data) s

example : tokenize (ascii "1 < 2 <B>&lt;</b>") =
    [.char 49, .char 32, .char 60, .char 32, .char 50, .char 32, .tag ⟨false, ascii "b", []⟩,
      .char 60, .tag ⟨true, ascii "b", []⟩] := by decide

/-! ### Escaping -/

/-- The bytes that have a role in a text or a quoted value. -/
def isSpecial (b : UInt8) : Bool := b = 60 || b = 62 || b = 38 || b = 34 || b = 39

/-- A reference for each special byte. -/
structure Escaper where
  raw : UInt8 → Bytes
  bytes : ∀ b, isSpecial b = true → ∀ c ∈ raw b, isReferenceByte c = true
  decodes : ∀ b, isSpecial b = true → decodeReference (raw b) = some b

def Escaper.escape (esc : Escaper) (b : UInt8) : Bytes :=
  if isSpecial b then 38 :: (esc.raw b ++ [59]) else [b]

def Escaper.escapeAll (esc : Escaper) (s : Bytes) : Bytes := s.flatMap esc.escape

/-- The references of `html/template`. -/
def templateReferences : List (UInt8 × Bytes) :=
  [(34, ascii "#34"), (38, ascii "amp"), (39, ascii "#39"), (60, ascii "lt"), (62, ascii "gt")]

theorem special_cases {b : UInt8} (hb : isSpecial b = true) :
    b = 60 ∨ b = 62 ∨ b = 38 ∨ b = 34 ∨ b = 39 := by
  simp only [isSpecial, Bool.or_eq_true, decide_eq_true_eq, or_assoc] at hb
  exact hb

theorem templateReferences_read : ∀ p ∈ templateReferences,
    (∀ c ∈ p.2, isReferenceByte c = true) ∧ decodeReference p.2 = some p.1 := by
  have hall : ∀ p ∈ templateReferences,
      p.2.all isReferenceByte = true ∧ decodeReference p.2 = some p.1 := by decide
  exact fun p hp => ⟨List.all_eq_true.mp (hall p hp).1, (hall p hp).2⟩

theorem mem_templateReferences {b : UInt8} (hb : isSpecial b = true) :
    (b, (templateReferences.lookup b).getD []) ∈ templateReferences := by
  rcases special_cases hb with rfl | rfl | rfl | rfl | rfl
  · exact List.mem_of_getElem? (i := 3) rfl
  · exact List.mem_of_getElem? (i := 4) rfl
  · exact List.mem_of_getElem? (i := 1) rfl
  · exact List.mem_of_getElem? (i := 0) rfl
  · exact List.mem_of_getElem? (i := 2) rfl

def templateEscaper : Escaper where
  raw b := (templateReferences.lookup b).getD []
  bytes _ hb := (templateReferences_read _ (mem_templateReferences hb)).1
  decodes _ hb := (templateReferences_read _ (mem_templateReferences hb)).2

/-- A string without special bytes is left alone. -/
theorem Escaper.escapeAll_eq (esc : Escaper) {s : Bytes} (hs : ∀ b ∈ s, isSpecial b = false) :
    esc.escapeAll s = s := by
  induction s with
  | nil => rfl
  | cons b s ih =>
    rw [List.forall_mem_cons] at hs
    have hb : esc.escape b = [b] := by
      rw [Escaper.escape, hs.1]
      rfl
    rw [Escaper.escapeAll, List.flatMap_cons, hb]
    exact congrArg (b :: ·) (ih hs.2)

/-- A reference is read up to its semicolon. -/
theorem tokens_reference {p : Place} {raw : Bytes} (hraw : ∀ c ∈ raw, isReferenceByte c = true)
    (read : Bytes) (s : Bytes) :
    tokens (.reference p read) (raw ++ s) = tokens (.reference p (read ++ raw)) s := by
  induction raw generalizing read with
  | nil => rw [List.nil_append, List.append_nil]
  | cons c raw ih =>
    rw [List.forall_mem_cons] at hraw
    have hstep : State.step (.reference p read) c = (.reference p (read ++ [c]), []) := by
      rw [State.step, if_pos hraw.1]
    rw [List.cons_append, tokens, hstep, ih hraw.2, List.append_assoc]
    rfl

/-- **A reference stands for its character.** -/
theorem tokens_reference_closed {raw : Bytes} {c : UInt8}
    (hraw : ∀ b ∈ raw, isReferenceByte b = true) (hc : decodeReference raw = some c) (p : Place)
    (s : Bytes) :
    tokens (.place p) (38 :: (raw ++ 59 :: s)) = (p.put c).2 ++ tokens (.place (p.put c).1) s := by
  have hopen : State.step (.place p) 38 = (.reference p [], []) := rfl
  have hclose : State.step (.reference p raw) 59 = (.place (p.put c).1, (p.put c).2) := by
    show (match decodeReference raw with | some c => _ | none => _) = _
    rw [hc]
  rw [tokens, hopen, tokens_reference hraw, List.nil_append, List.nil_append, tokens, hclose]

theorem tokens_special (esc : Escaper) {b : UInt8} (hb : isSpecial b = true) (p : Place)
    (s : Bytes) :
    tokens (.place p) (esc.escape b ++ s) = (p.put b).2 ++ tokens (.place (p.put b).1) s := by
  have hescape : esc.escape b ++ s = 38 :: (esc.raw b ++ 59 :: s) := by
    rw [Escaper.escape, hb]
    show 38 :: (esc.raw b ++ [59]) ++ s = _
    rw [List.cons_append, List.append_assoc]
    rfl
  rw [hescape, tokens_reference_closed (esc.bytes b hb) (esc.decodes b hb)]

theorem ne_of_not_special {b c : UInt8} (hb : isSpecial b = false) (hc : isSpecial c = true) :
    b ≠ c := by
  intro h
  rw [h, hc] at hb
  exact absurd hb (by decide)

/-- **An escaped byte is read as a character.** -/
theorem tokens_escape_byte (esc : Escaper) {p : Place} {b : UInt8}
    (hplain : isSpecial b = false → p.step b = (.place (p.put b).1, (p.put b).2)) (s : Bytes) :
    tokens (.place p) (esc.escape b ++ s) = (p.put b).2 ++ tokens (.place (p.put b).1) s := by
  cases hb : isSpecial b with
  | true => exact tokens_special esc hb p s
  | false =>
    rw [Escaper.escape, hb]
    show (p.step b).2 ++ tokens (p.step b).1 s = _
    rw [hplain hb]

/-- **An escaped text is read as its characters.** -/
theorem tokens_escape (esc : Escaper) (text s : Bytes) :
    tokens (.place .data) (esc.escapeAll text ++ s) =
      text.map .char ++ tokens (.place .data) s := by
  induction text with
  | nil => rfl
  | cons b text ih =>
    have hplain (hb : isSpecial b = false) : Place.step .data b = (.place .data, [.char b]) := by
      rw [Place.step, if_neg (ne_of_not_special hb rfl)]
      exact if_neg (ne_of_not_special hb rfl)
    rw [Escaper.escapeAll, List.flatMap_cons, List.append_assoc, tokens_escape_byte esc hplain]
    exact congrArg _ ih

/-- An unquoted value goes on where there is no blank. -/
theorem step_unquoted {t : Tag} {name read : Bytes} {b : UInt8} (hspace : isSpace b = false)
    (hb : isSpecial b = false) :
    Place.step (.value t name none read) b = (.place (.value t name none (read ++ [b])), []) := by
  rw [Place.step, if_neg (ne_of_not_special hb rfl)]
  show (if isSpace b = true then _ else _) = _
  rw [hspace]
  exact if_neg (ne_of_not_special hb rfl)

/-- **An escaped value** without blanks is read as it was. -/
theorem tokens_escape_value (esc : Escaper) {value : Bytes}
    (hvalue : ∀ b ∈ value, isSpace b = false) (t : Tag) (name read s : Bytes) :
    tokens (.place (.value t name none read)) (esc.escapeAll value ++ s) =
      tokens (.place (.value t name none (read ++ value))) s := by
  induction value generalizing read with
  | nil => rw [List.append_nil]; rfl
  | cons b value ih =>
    rw [List.forall_mem_cons] at hvalue
    rw [Escaper.escapeAll, List.flatMap_cons, List.append_assoc,
      tokens_escape_byte esc (step_unquoted hvalue.1)]
    show tokens (.place (.value t name none (read ++ [b]))) (esc.escapeAll value ++ s) = _
    rw [ih hvalue.2, List.append_assoc]
    rfl

/-- The first byte of an escaped value starts a value without quotes. -/
theorem tokens_value_start (esc : Escaper) {value : Bytes} (hne : value ≠ [])
    (hvalue : ∀ b ∈ value, isSpace b = false) (t : Tag) (name s : Bytes) :
    tokens (.beforeAttributeValue t name) (esc.escapeAll value ++ s) =
      tokens (.place (.value t name none value)) s := by
  have hstart : tokens (.beforeAttributeValue t name) (esc.escapeAll value ++ s) =
      tokens (.place (.value t name none [])) (esc.escapeAll value ++ s) := by
    obtain ⟨b, value, rfl⟩ := List.exists_cons_of_ne_nil hne
    rw [List.forall_mem_cons] at hvalue
    rw [Escaper.escapeAll, List.flatMap_cons, List.append_assoc, Escaper.escape]
    cases hb : isSpecial b with
    | true => rfl
    | false =>
      have hstep : State.step (.beforeAttributeValue t name) b =
          Place.step (.value t name none []) b := by
        have hquotes : ¬(b = 34 ∨ b = 39) :=
          not_or.mpr ⟨ne_of_not_special hb rfl, ne_of_not_special hb rfl⟩
        show (if isSpace b = true then _ else if b = 34 ∨ b = 39 then _ else if b = 62 then _ else _) = _
        rw [hvalue.1, if_neg hquotes, if_neg (ne_of_not_special hb rfl)]
        rfl
      show (State.step (.beforeAttributeValue t name) b).2 ++
        tokens (State.step (.beforeAttributeValue t name) b).1 _ = _
      rw [hstep]
      rfl
  rw [hstart, tokens_escape_value esc hvalue, List.nil_append]

end ShareNotes.Lib.HtmlTokens
