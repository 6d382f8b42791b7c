import ShareNotes.Lib.Decimal

/-!
# A form field from the template to the request

A template writes a value into an unquoted attribute through
`htmlNospaceEscaper`; a browser reads the attribute back, drops line breaks from
the value of a text input, and submits it url-encoded; the server undoes the
encoding. Each stage is undone by the next, so a value without line breaks and
zero bytes, and not empty, arrives as it left.
-/

namespace ShareNotes.Lib.HtmlForm

open ShareNotes.Lib.Decimal

/-! ### Unquoted attribute values -/

/-- The bytes that are escaped in an unquoted value. -/
def htmlNospaceReplacementTable : List (UInt8 × Bytes) :=
  [(0, ascii "&#xfffd;"), (9, ascii "&#9;"), (10, ascii "&#10;"), (11, ascii "&#11;"),
    (12, ascii "&#12;"), (13, ascii "&#13;"), (32, ascii "&#32;"), (34, ascii "&#34;"),
    (38, ascii "&amp;"), (39, ascii "&#39;"), (43, ascii "&#43;"), (60, ascii "&lt;"),
    (61, ascii "&#61;"), (62, ascii "&gt;"), (96, ascii "&#96;")]

def escapeByte (b : UInt8) : Bytes := (htmlNospaceReplacementTable.lookup b).getD [b]

/-- The escaper for unquoted values, on ASCII. -/
def htmlNospaceEscaper (s : Bytes) : Bytes := s.flatMap escapeByte

/-- Tab, line feed, form feed, carriage return and space. -/
def isSpace (b : UInt8) : Bool := b = 9 || b = 10 || b = 12 || b = 13 || b = 32

/-- The bytes that end an unquoted value. -/
def endsValue (b : UInt8) : Bool := isSpace b || b = 62

/-- A numeric reference after `&#`, of an ASCII character. -/
def numericReference (s : Bytes) : Option (UInt8 × Bytes) :=
  match s.takeWhile isDigit, s.dropWhile isDigit with
  | d :: ds, 59 :: rest =>
    match readDigits (d :: ds) 0 with
    | some n => if n < 128 then some (UInt8.ofNat n, rest) else none
    | none => none
  | _, _ => none

/-- A reference after `&`; of the named ones, those that the escaper writes. -/
def reference : Bytes → Option (UInt8 × Bytes)
  | 35 :: s => numericReference s
  | 97 :: 109 :: 112 :: 59 :: rest => some (38, rest)
  | 108 :: 116 :: 59 :: rest => some (60, rest)
  | 103 :: 116 :: 59 :: rest => some (62, rest)
  | _ => none

/-- Replace references; the number bounds how many characters are read. -/
def decodeReferences : ℕ → Bytes → Bytes
  | 0, s => s
  | _ + 1, [] => []
  | n + 1, b :: s =>
    if b = 38 then
      match reference s with
      | some (c, rest) => c :: decodeReferences n rest
      | none => b :: decodeReferences n s
    else b :: decodeReferences n s

/-- A byte is replaced as a table says, or stays. -/
theorem replacement_cases (table : List (UInt8 × Bytes)) (b : UInt8) :
    (b, (table.lookup b).getD [b]) ∈ table ∨
      (table.lookup b).getD [b] = [b] ∧ b ∉ table.map Prod.fst := by
  cases hlookup : table.lookup b with
  | some r =>
    left
    obtain ⟨l₁, l₂, htable, _⟩ := List.lookup_eq_some_iff.mp hlookup
    rw [htable, Option.getD_some]
    exact List.mem_append_right _ List.mem_cons_self
  | none =>
    right
    rw [List.lookup_eq_none_iff] at hlookup
    refine ⟨rfl, fun hmem => ?_⟩
    obtain ⟨p, hp, rfl⟩ := List.mem_map.mp hmem
    exact absurd (hlookup p hp) (by simp)

theorem escapeByte_cases (b : UInt8) :
    (b, escapeByte b) ∈ htmlNospaceReplacementTable ∨
      escapeByte b = [b] ∧ b ∉ htmlNospaceReplacementTable.map Prod.fst :=
  replacement_cases htmlNospaceReplacementTable b

theorem endsValue_replacement :
    ∀ p ∈ htmlNospaceReplacementTable, ∀ c ∈ p.2, endsValue c = false := by
  have hall : (htmlNospaceReplacementTable.all fun p => p.2.all fun c => !endsValue c) = true := by
    decide
  intro p hp c hc
  have hp' := List.all_eq_true.mp hall p hp
  simpa using List.all_eq_true.mp hp' c hc

theorem replacement_ne_nil : ∀ p ∈ htmlNospaceReplacementTable, p.2 ≠ [] := by decide

/-- Every byte that ends a value is in the table. -/
theorem mem_table_of_endsValue {b : UInt8} (hb : endsValue b = true) :
    b ∈ htmlNospaceReplacementTable.map Prod.fst := by
  simp only [endsValue, isSpace, Bool.or_eq_true, decide_eq_true_eq] at hb
  rcases hb with ((((hb | hb) | hb) | hb) | hb) | hb <;> rw [hb] <;> decide

theorem endsValue_escapeByte {b c : UInt8} (hc : c ∈ escapeByte b) : endsValue c = false := by
  rcases escapeByte_cases b with hmem | ⟨hself, hnot⟩
  · exact endsValue_replacement _ hmem c hc
  · rw [hself, List.mem_singleton] at hc
    rw [hc]
    cases hends : endsValue b with
    | true => exact absurd (mem_table_of_endsValue hends) hnot
    | false => rfl

/-- An escaped value holds no byte that ends it. -/
theorem endsValue_escaped {s : Bytes} {c : UInt8} (hc : c ∈ htmlNospaceEscaper s) :
    endsValue c = false := by
  obtain ⟨b, _, hb⟩ := List.mem_flatMap.mp hc
  exact endsValue_escapeByte hb

/-- Every replacement but that of the zero byte is a reference to the byte it replaces. -/
theorem reference_of_mem {b : UInt8} {r : Bytes} (hb : b ≠ 0)
    (hr : (b, r) ∈ htmlNospaceReplacementTable) (s : Bytes) :
    ∃ r', r = 38 :: r' ∧ reference (r' ++ s) = some (b, s) := by
  simp only [htmlNospaceReplacementTable, List.mem_cons, Prod.mk.injEq, List.not_mem_nil,
    or_false] at hr
  rcases hr with h | h | h | h | h | h | h | h | h | h | h | h | h | h | h
  · exact absurd h.1 hb
  all_goals
    obtain ⟨rfl, rfl⟩ := h
    exact ⟨_, rfl, rfl⟩

/-- **Reading an escaped byte back.** -/
theorem decodeReferences_escapeByte {b : UInt8} (hb : b ≠ 0) (n : ℕ) (s : Bytes) :
    decodeReferences (n + 1) (escapeByte b ++ s) = b :: decodeReferences n s := by
  rcases escapeByte_cases b with hmem | ⟨hself, hnot⟩
  · obtain ⟨r, hr, href⟩ := reference_of_mem hb hmem s
    rw [hr, List.cons_append, decodeReferences, if_pos rfl, href]
  · have hamp : b ≠ 38 := by
      intro h
      rw [h] at hnot
      exact absurd hnot (by decide)
    rw [hself, List.singleton_append, decodeReferences, if_neg hamp]

/-- **Reading an escaped value back.** -/
theorem decodeReferences_escaped {s : Bytes} (hs : 0 ∉ s) {n : ℕ} (hn : s.length ≤ n) :
    decodeReferences n (htmlNospaceEscaper s) = s := by
  induction s generalizing n with
  | nil => cases n <;> rfl
  | cons b s ih =>
    rw [List.mem_cons, not_or] at hs
    rw [List.length_cons] at hn
    obtain ⟨m, rfl⟩ : ∃ m, n = m + 1 := ⟨n - 1, by omega⟩
    rw [htmlNospaceEscaper, List.flatMap_cons,
      decodeReferences_escapeByte (fun h => hs.1 h.symm)]
    exact congrArg _ (ih hs.2 (by omega))

theorem escapeByte_ne_nil (b : UInt8) : escapeByte b ≠ [] := by
  rcases escapeByte_cases b with hmem | ⟨hself, _⟩
  · exact replacement_ne_nil _ hmem
  · rw [hself]
    exact List.cons_ne_nil b []

theorem length_le_escaped (s : Bytes) : s.length ≤ (htmlNospaceEscaper s).length := by
  induction s with
  | nil => exact le_rfl
  | cons b s ih =>
    have hb := List.length_pos_iff.mpr (escapeByte_ne_nil b)
    rw [htmlNospaceEscaper, List.flatMap_cons, List.length_append, List.length_cons]
    rw [htmlNospaceEscaper] at ih
    omega

/-! ### Input elements -/

/-- An input whose value is written by the template and whose name is fixed. -/
def hiddenInput (name value : Bytes) : Bytes :=
  ascii "<input value=" ++ (htmlNospaceEscaper value ++ (ascii " name=\"" ++ (name ++
    ascii "\"></input>")))

/-- What follows a prefix. -/
def dropPrefix (pre s : Bytes) : Option Bytes :=
  if pre.isPrefixOf s then some (s.drop pre.length) else none

theorem dropPrefix_append (pre s : Bytes) : dropPrefix pre (pre ++ s) = some s := by
  rw [dropPrefix, if_pos (List.isPrefixOf_iff_prefix.mpr (List.prefix_append pre s)),
    List.drop_left]

/-- The name and the value of an input with an unquoted value. Space before the
value is skipped, and line breaks are dropped from it. -/
def readInput (html : Bytes) : Option (Bytes × Bytes) :=
  (dropPrefix (ascii "<input value=") html).bind fun s =>
    let s := s.dropWhile isSpace
    let raw := s.takeWhile fun b => !endsValue b
    (dropPrefix (ascii " name=\"") (s.dropWhile fun b => !endsValue b)).map fun s =>
      (s.takeWhile fun b => b ≠ 34,
        (decodeReferences raw.length raw).filter fun b => b ≠ 10 && b ≠ 13)

/-- A value that a form field carries unchanged. -/
structure Carried (value : Bytes) : Prop where
  ne_nil : value ≠ []
  plain : ∀ b ∈ value, b ≠ 0 ∧ b ≠ 10 ∧ b ≠ 13

theorem takeWhile_append_of_pos {p : UInt8 → Bool} {s : Bytes} (hs : ∀ b ∈ s, p b = true)
    {c : UInt8} (hc : p c = false) (rest : Bytes) :
    (s ++ c :: rest).takeWhile p = s ∧ (s ++ c :: rest).dropWhile p = c :: rest := by
  induction s with
  | nil => simp [hc]
  | cons b s ih =>
    have hb := hs b (by simp)
    have := ih fun b hb => hs b (by simp [hb])
    simp [hb, this]

theorem dropWhile_of_head {s : Bytes} (hs : ∀ b ∈ s.head?, isSpace b = false) :
    s.dropWhile isSpace = s := by
  cases s with
  | nil => rfl
  | cons b s =>
    have hb := hs b rfl
    rw [List.dropWhile_cons, hb]
    rfl

/-- **A browser reads what the template wrote.** -/
theorem readInput_hiddenInput {name value : Bytes} (hname : 34 ∉ name) (hvalue : Carried value) :
    readInput (hiddenInput name value) = some (name, value) := by
  have hends : ∀ b ∈ htmlNospaceEscaper value, (!endsValue b) = true := by
    intro b hb
    rw [endsValue_escaped hb]
    rfl
  obtain ⟨htake, hdrop⟩ := takeWhile_append_of_pos (p := fun b => !endsValue b) hends
    (c := 32) rfl (ascii "name=\"" ++ (name ++ ascii "\"></input>"))
  have hspace : ascii " name=\"" ++ (name ++ ascii "\"></input>") =
      32 :: (ascii "name=\"" ++ (name ++ ascii "\"></input>")) := rfl
  have hhead : (htmlNospaceEscaper value ++ (ascii " name=\"" ++ (name ++
      ascii "\"></input>"))).dropWhile isSpace =
      htmlNospaceEscaper value ++ (ascii " name=\"" ++ (name ++ ascii "\"></input>")) := by
    apply dropWhile_of_head
    intro b hb
    have hlen := length_le_escaped value
    have hpos := List.length_pos_iff.mpr hvalue.ne_nil
    cases hesc : htmlNospaceEscaper value with
    | nil =>
      rw [hesc, List.length_nil] at hlen
      omega
    | cons c cs =>
      rw [hesc, List.cons_append, List.head?_cons, Option.mem_some_iff] at hb
      have hc : c ∈ htmlNospaceEscaper value := by
        rw [hesc]
        exact List.mem_cons_self
      have hend := endsValue_escaped hc
      rw [endsValue, Bool.or_eq_false_iff] at hend
      rw [← hb]
      exact hend.1
  have hzero : 0 ∉ value := fun h => (hvalue.plain 0 h).1 rfl
  have hfilter : value.filter (fun b => b ≠ 10 && b ≠ 13) = value := by
    apply List.filter_eq_self.mpr
    intro b hb
    have := hvalue.plain b hb
    simp [this.2.1, this.2.2]
  have hname' : (name ++ ascii "\"></input>").takeWhile (fun b => b ≠ 34) = name := by
    have hne : ∀ b ∈ name, decide (b ≠ 34) = true := by
      intro b hb
      rw [decide_eq_true_eq]
      intro h
      rw [h] at hb
      exact hname hb
    exact (takeWhile_append_of_pos hne (c := 34) (by decide) (ascii "></input>")).1
  rw [readInput, hiddenInput, dropPrefix_append, Option.bind_some]
  dsimp only
  rw [hhead, hspace, htake, hdrop, ← hspace, dropPrefix_append, Option.map_some, hname',
    decodeReferences_escaped hzero (length_le_escaped value), hfilter]

/-! ### Submission -/

/-- The upper-case hexadecimal digit. -/
def hexDigit (n : ℕ) : UInt8 := if n < 10 then UInt8.ofNat (48 + n) else UInt8.ofNat (55 + n)

/-- Letters, digits and `*-._` stay, and a space becomes a plus. -/
def urlEncodeByte (b : UInt8) : Bytes :=
  if isDigit b || (97 ≤ b.toNat && b.toNat ≤ 122) || (65 ≤ b.toNat && b.toNat ≤ 90) ||
      b = 42 || b = 45 || b = 46 || b = 95 then [b]
  else if b = 32 then [43]
  else [37, hexDigit (b.toNat / 16), hexDigit (b.toNat % 16)]

def urlEncode (s : Bytes) : Bytes := s.flatMap urlEncodeByte

/-- The value of a hexadecimal digit. -/
def unhex (b : UInt8) : Option ℕ :=
  if isDigit b then some (b.toNat - 48)
  else if 97 ≤ b.toNat ∧ b.toNat ≤ 102 then some (b.toNat - 87)
  else if 65 ≤ b.toNat ∧ b.toNat ≤ 70 then some (b.toNat - 55)
  else none

def queryUnescape : Bytes → Option Bytes
  | [] => some []
  | 37 :: h :: l :: s =>
    match unhex h, unhex l with
    | some h, some l => (queryUnescape s).map fun t => UInt8.ofNat (16 * h + l) :: t
    | _, _ => none
  | b :: s =>
    if b = 37 then none
    else (queryUnescape s).map fun t => (if b = 43 then 32 else b) :: t

theorem unhex_hexDigit {n : ℕ} (hn : n < 16) : unhex (hexDigit n) = some n := by
  revert n
  decide

theorem queryUnescape_cons {b : UInt8} (hb : b ≠ 37) (s : Bytes) :
    queryUnescape (b :: s) =
      (queryUnescape s).map fun t => (if b = 43 then 32 else b) :: t := by
  rw [queryUnescape]
  · rw [if_neg hb]
  · intro h l s' hb' _
    exact absurd hb' hb

/-- A fact about all bytes, byte by byte. -/
theorem forall_byte {P : UInt8 → Prop} (h : ∀ n < 256, P (UInt8.ofNat n)) (b : UInt8) : P b := by
  have hb := h b.toNat b.toNat_lt
  rwa [UInt8.ofNat_toNat] at hb

/-- A byte that is sent as it is is neither a percent sign nor a plus. -/
theorem urlEncodeByte_cases (b : UInt8) :
    (urlEncodeByte b = [b] ∧ b ≠ 37 ∧ b ≠ 43) ∨ (urlEncodeByte b = [43] ∧ b = 32) ∨
      urlEncodeByte b = [37, hexDigit (b.toNat / 16), hexDigit (b.toNat % 16)] := by
  revert b
  exact forall_byte (by decide +kernel)

theorem queryUnescape_urlEncodeByte (b : UInt8) (s : Bytes) :
    queryUnescape (urlEncodeByte b ++ s) = (queryUnescape s).map fun t => b :: t := by
  have hb := b.toNat_lt
  rcases urlEncodeByte_cases b with ⟨h, hpercent, hplus⟩ | ⟨h, hspace⟩ | h
  · rw [h, List.singleton_append, queryUnescape_cons hpercent, if_neg hplus]
  · rw [h, List.singleton_append, queryUnescape_cons (by decide), if_pos rfl, hspace]
  · rw [h]
    show queryUnescape (37 :: hexDigit (b.toNat / 16) :: hexDigit (b.toNat % 16) :: s) = _
    rw [queryUnescape, unhex_hexDigit (by omega), unhex_hexDigit (by omega)]
    have hval : 16 * (b.toNat / 16) + b.toNat % 16 = b.toNat := by omega
    simp only [hval, UInt8.ofNat_toNat]

/-- **The server reads what the browser sent.** -/
@[simp] theorem queryUnescape_urlEncode (s : Bytes) : queryUnescape (urlEncode s) = some s := by
  induction s with
  | nil => rfl
  | cons b s ih =>
    rw [urlEncode, List.flatMap_cons, queryUnescape_urlEncodeByte]
    rw [urlEncode] at ih
    rw [ih]
    rfl

example : readInput (hiddenInput (ascii "title") (ascii "a \"b\" & c")) =
    some (ascii "title", ascii "a \"b\" & c") := by decide

end ShareNotes.Lib.HtmlForm
