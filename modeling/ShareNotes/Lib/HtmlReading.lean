import ShareNotes.Lib.HtmlTokens

/-!
# Reading a page part by part

`Reads` says what a part of a page is read as and in which state it leaves the
tokenizer, whatever follows, so the readings of parts that stand one behind the other
are put together. A text without `<` is read as characters from every state in which
only characters have been read (`Textual`), and what is neither a blank nor `>` stays
in a value without quotes (`InValue`); ampersands may be in both.
-/

namespace ShareNotes.Lib.HtmlReading

open ShareNotes.Lib.Decimal ShareNotes.Lib.HtmlForm ShareNotes.Lib.HtmlTokens

/-! ### Reading a part of a page -/

/-- From `st` on, `s` is read as `toks`, and what follows it from `st'` on. -/
def Reads (st : State) (s : Bytes) (toks : List Token) (st' : State) : Prop :=
  ∀ rest, tokens st (s ++ rest) = toks ++ tokens st' rest

theorem Reads.append {st st' st'' : State} {s s' : Bytes} {toks toks' : List Token}
    (h : Reads st s toks st') (h' : Reads st' s' toks' st'') :
    Reads st (s ++ s') (toks ++ toks') st'' := by
  intro rest
  rw [List.append_assoc, h, h', List.append_assoc]

theorem reads_step {st st' : State} {b : UInt8} {toks : List Token}
    (h : st.step b = (st', toks)) : Reads st [b] toks st' := by
  intro rest
  rw [List.singleton_append, tokens, h]

/-- Where only characters have been read, and perhaps a reference has begun. -/
def Textual (st : State) : Prop := st = .place .data ∨ ∃ raw, st = .reference .data raw

theorem putAll_data (s : Bytes) : Place.putAll .data s = (.data, s.map .char) := by
  suffices h : ∀ acc, s.foldl (fun r b => ((r.1.put b).1, r.2 ++ (r.1.put b).2))
      (Place.data, acc) = (Place.data, acc ++ s.map Token.char) from h []
  induction s with
  | nil => exact fun acc => by rw [List.foldl_nil, List.map_nil, List.append_nil]
  | cons b s ih =>
    intro acc
    rw [List.foldl_cons, List.map_cons]
    show s.foldl _ (Place.data, acc ++ [Token.char b]) = _
    rw [ih, List.append_assoc]
    rfl

theorem step_data {b : UInt8} (hb : b ≠ 60) :
    ∃ st' cs, Textual st' ∧ Place.step .data b = (st', List.map .char cs) := by
  rw [Place.step]
  by_cases hamp : b = 38
  · rw [if_pos hamp]
    exact ⟨_, [], Or.inr ⟨[], rfl⟩, rfl⟩
  · rw [if_neg hamp]
    exact ⟨_, [b], Or.inl rfl, if_neg hb⟩

theorem flush_data (s : Bytes) {b : UInt8} (hb : b ≠ 60) :
    ∃ st' cs, Textual st' ∧ Place.flush .data s b = (st', List.map .char cs) := by
  obtain ⟨st', cs, hst', hstep⟩ := step_data hb
  refine ⟨st', s ++ cs, hst', ?_⟩
  rw [Place.flush, putAll_data, hstep, List.map_append]

/-- A byte other than `<` leads to characters only. -/
theorem Textual.step {st : State} (h : Textual st) {b : UInt8} (hb : b ≠ 60) :
    ∃ st' cs, Textual st' ∧ st.step b = (st', List.map .char cs) := by
  rcases h with rfl | ⟨raw, rfl⟩
  · exact step_data hb
  · rw [State.step]
    split
    · exact ⟨_, [], Or.inr ⟨_, rfl⟩, rfl⟩
    · split
      · cases hc : decodeReference raw with
        | some c => exact ⟨_, [c], Or.inl rfl, rfl⟩
        | none => exact flush_data _ hb
      · exact flush_data _ hb

/-- A text without `<` is read as characters. -/
theorem Textual.reads {st : State} (h : Textual st) {s : Bytes} (hs : ∀ b ∈ s, b ≠ 60) :
    ∃ st' cs, Textual st' ∧ Reads st s (List.map .char cs) st' := by
  induction s generalizing st with
  | nil => exact ⟨st, [], h, fun _ => rfl⟩
  | cons b s ih =>
    rw [List.forall_mem_cons] at hs
    obtain ⟨st₁, cs, hst₁, hstep⟩ := h.step hs.1
    obtain ⟨st₂, cs', hst₂, hreads⟩ := ih hst₁ hs.2
    refine ⟨st₂, cs ++ cs', hst₂, ?_⟩
    rw [List.map_append]
    exact (reads_step hstep).append hreads

/-- Without ampersands they are the characters of the text. -/
theorem reads_plain {s : Bytes} (hs : ∀ b ∈ s, b ≠ 60) (hamp : ∀ b ∈ s, b ≠ 38) :
    Reads (.place .data) s (s.map .char) (.place .data) := by
  induction s with
  | nil => exact fun _ => rfl
  | cons b s ih =>
    rw [List.forall_mem_cons] at hs hamp
    have hstep : State.step (.place .data) b = (.place .data, [.char b]) := by
      show Place.step .data b = _
      rw [Place.step, if_neg hamp.1]
      exact if_neg hs.1
    exact (reads_step hstep).append (ih hs.2 hamp.2)

/-- `<` opens a tag, and a reference that has begun is none. -/
theorem Textual.opens {st : State} (h : Textual st) :
    ∃ cs, Reads st [60] (List.map .char cs) .tagOpen := by
  rcases h with rfl | ⟨raw, rfl⟩
  · exact ⟨[], reads_step rfl⟩
  · refine ⟨38 :: raw, reads_step ?_⟩
    show Place.flush .data (38 :: raw) 60 = _
    rw [Place.flush, putAll_data]
    show (State.tagOpen, List.map Token.char (38 :: raw) ++ []) = _
    rw [List.append_nil]

/-! ### In a value without quotes -/

/-- Inside of a value that starts with `front`, and perhaps of a reference in it. -/
def InValue (t : Tag) (name front : Bytes) (st : State) : Prop :=
  ∃ read, st = .place (.value t name none (front ++ read)) ∨
    ∃ raw, st = .reference (.value t name none (front ++ read)) raw

theorem putAll_value (t : Tag) (name : Bytes) (quote : Option UInt8) (read s : Bytes) :
    Place.putAll (.value t name quote read) s = (.value t name quote (read ++ s), []) := by
  suffices h : ∀ read, s.foldl (fun r b => ((r.1.put b).1, r.2 ++ (r.1.put b).2))
      (Place.value t name quote read, []) = (Place.value t name quote (read ++ s), []) from h read
  induction s with
  | nil => exact fun read => by rw [List.foldl_nil, List.append_nil]
  | cons b s ih =>
    intro read
    rw [List.foldl_cons]
    show s.foldl _ (Place.value t name quote (read ++ [b]), []) = _
    rw [ih, List.append_assoc]
    rfl

variable {t : Tag} {name front : Bytes}

theorem inValue_start : InValue t name [] (.place (.value t name none [])) := ⟨[], Or.inl rfl⟩

theorem step_inValue (read : Bytes) {b : UInt8} (hspace : isSpace b = false) (hb : b ≠ 62) :
    ∃ st', InValue t name read st' ∧ Place.step (.value t name none read) b = (st', []) ∧
      (b ≠ 38 → st' = .place (.value t name none (read ++ [b]))) := by
  rw [Place.step]
  by_cases hamp : b = 38
  · rw [if_pos hamp]
    refine ⟨_, ⟨[], Or.inr ⟨[], ?_⟩⟩, rfl, fun h => absurd hamp h⟩
    rw [List.append_nil]
  · rw [if_neg hamp]
    refine ⟨_, ⟨[b], Or.inl rfl⟩, ?_, fun _ => rfl⟩
    show (if isSpace b = true then _ else if b = 62 then _ else _) = _
    rw [hspace, if_neg (by decide), if_neg hb]

/-- What has been read of a value stays. -/
theorem InValue.of_append {read : Bytes} {st : State} (h : InValue t name (front ++ read) st) :
    InValue t name front st := by
  obtain ⟨more, hst⟩ := h
  rw [List.append_assoc] at hst
  exact ⟨read ++ more, hst⟩

/-- A value goes on where there is neither a blank nor `>`. -/
theorem InValue.step {st : State} (h : InValue t name front st) {b : UInt8}
    (hspace : isSpace b = false) (hb : b ≠ 62) :
    ∃ st', InValue t name front st' ∧ st.step b = (st', []) := by
  obtain ⟨read, rfl | ⟨raw, rfl⟩⟩ := h
  · obtain ⟨st', hst', hstep, _⟩ := step_inValue (front ++ read) hspace hb
    exact ⟨st', hst'.of_append, hstep⟩
  · have hflush : ∃ st', InValue t name front st' ∧
        Place.flush (.value t name none (front ++ read)) (38 :: raw) b = (st', []) := by
      obtain ⟨st', hst', hstep, _⟩ := step_inValue (front ++ read ++ 38 :: raw) hspace hb
      refine ⟨st', hst'.of_append.of_append, ?_⟩
      rw [Place.flush, putAll_value, hstep]
      rfl
    rw [State.step]
    split
    · exact ⟨_, ⟨read, Or.inr ⟨_, rfl⟩⟩, rfl⟩
    · split
      · cases hc : decodeReference raw with
        | some c =>
          refine ⟨_, ⟨read ++ [c], Or.inl rfl⟩, ?_⟩
          rw [← List.append_assoc]
          rfl
        | none => exact hflush
      · exact hflush

theorem InValue.reads {st : State} (h : InValue t name front st) {s : Bytes}
    (hspace : ∀ b ∈ s, isSpace b = false) (hs : ∀ b ∈ s, b ≠ 62) :
    ∃ st', InValue t name front st' ∧ Reads st s [] st' := by
  induction s generalizing st with
  | nil => exact ⟨st, h, fun _ => rfl⟩
  | cons b s ih =>
    rw [List.forall_mem_cons] at hspace hs
    obtain ⟨st₁, hst₁, hstep⟩ := h.step hspace.1 hs.1
    obtain ⟨st₂, hst₂, hreads⟩ := ih hst₁ hspace.2 hs.2
    exact ⟨st₂, hst₂, (reads_step hstep).append hreads⟩

/-- Without an ampersand the value is what was written. -/
theorem reads_value {s : Bytes} (hspace : ∀ b ∈ s, isSpace b = false) (hs : ∀ b ∈ s, b ≠ 62)
    (hamp : ∀ b ∈ s, b ≠ 38) (read : Bytes) :
    Reads (.place (.value t name none read)) s [] (.place (.value t name none (read ++ s))) := by
  induction s generalizing read with
  | nil =>
    intro rest
    rw [List.append_nil]
    rfl
  | cons b s ih =>
    rw [List.forall_mem_cons] at hspace hs hamp
    obtain ⟨st', _, hstep, hst'⟩ := step_inValue read hspace.1 hs.1
    rw [hst' hamp.1] at hstep
    have hfirst : Reads (.place (.value t name none read)) [b] []
        (.place (.value t name none (read ++ [b]))) := reads_step hstep
    have hreads := hfirst.append (ih hspace.2 hs.2 hamp.2 (read ++ [b]))
    rw [List.append_assoc] at hreads
    exact hreads

/-- The first byte of a value starts it, unless it is a quotation mark. -/
theorem reads_start {s : Bytes} {toks : List Token} {st' : State} (hne : s ≠ [])
    (hfirst : ∀ b ∈ s.head?, isSpace b = false ∧ b ≠ 62 ∧ b ≠ 34 ∧ b ≠ 39)
    (h : Reads (.place (.value t name none [])) s toks st') :
    Reads (.beforeAttributeValue t name) s toks st' := by
  intro rest
  rw [← h rest]
  obtain ⟨b, s, rfl⟩ := List.exists_cons_of_ne_nil hne
  obtain ⟨hspace, h62, h34, h39⟩ := hfirst b rfl
  have hstep : State.step (.beforeAttributeValue t name) b =
      Place.step (.value t name none []) b := by
    rw [State.step, hspace, if_neg (by decide), if_neg (not_or.mpr ⟨h34, h39⟩), if_neg h62]
  rw [List.cons_append, tokens, hstep]
  rfl

/-- A blank ends the value. -/
theorem InValue.ends {st : State} (h : InValue t name front st) :
    ∃ value, front <+: value ∧ Reads st [32] [] (.beforeAttributeName (t.add name value)) := by
  obtain ⟨read, rfl | ⟨raw, rfl⟩⟩ := h
  · exact ⟨front ++ read, List.prefix_append _ _, reads_step rfl⟩
  · refine ⟨front ++ (read ++ 38 :: raw), List.prefix_append _ _, reads_step ?_⟩
    show Place.flush (.value t name none (front ++ read)) (38 :: raw) 32 = _
    rw [Place.flush, putAll_value, List.append_assoc]
    rfl

/-- `>` ends the value and the tag. -/
theorem InValue.closes {st : State} (h : InValue t name front st) :
    ∃ value, Reads st [62] [.tag (t.add name value)] (.place .data) := by
  obtain ⟨read, rfl | ⟨raw, rfl⟩⟩ := h
  · exact ⟨front ++ read, reads_step rfl⟩
  · refine ⟨front ++ read ++ 38 :: raw, reads_step ?_⟩
    show Place.flush (.value t name none (front ++ read)) (38 :: raw) 62 = _
    rw [Place.flush, putAll_value]
    rfl

/-- What can stand as a value without quotes: no blank and no `>`, and at the front no
quotation mark and no ampersand. -/
structure Unquoted (s : Bytes) : Prop where
  ne_nil : s ≠ []
  space : ∀ b ∈ s, isSpace b = false
  greater : ∀ b ∈ s, b ≠ 62
  first : ∀ b ∈ s.head?, b ≠ 34 ∧ b ≠ 39 ∧ b ≠ 38

/-- The value that is read for what was written: it starts the same, and is the same
unless there is an ampersand in it. -/
structure ReadAs (written value : Bytes) : Prop where
  head : value.head? = written.head?
  exact : (∀ b ∈ written, b ≠ 38) → value = written

theorem readAs_refl (s : Bytes) : ReadAs s s := ⟨rfl, fun _ => rfl⟩

/-- **A value that is written without quotes and not escaped.** -/
theorem Unquoted.reads {s : Bytes} (h : Unquoted s) (t : Tag) (name : Bytes) :
    ∃ value, ReadAs s value ∧ Reads (.beforeAttributeValue t name) (s ++ [32]) []
      (.beforeAttributeName (t.add name value)) := by
  obtain ⟨b, s, rfl⟩ := List.exists_cons_of_ne_nil h.ne_nil
  obtain ⟨h34, h39, h38⟩ := h.first b rfl
  have hspace := List.forall_mem_cons.mp h.space
  have hgreater := List.forall_mem_cons.mp h.greater
  have hstart {st' : State} (hreads : Reads (.place (.value t name none [])) (b :: s) [] st') :
      Reads (.beforeAttributeValue t name) (b :: s) [] st' := by
    refine reads_start h.ne_nil (fun c hc => ?_) hreads
    rw [← Option.some.inj hc]
    exact ⟨hspace.1, hgreater.1, h34, h39⟩
  by_cases hamp : ∀ c ∈ b :: s, c ≠ 38
  · have hvalue : Reads (.place (.value t name none [])) (b :: s) []
        (.place (.value t name none (b :: s))) := reads_value h.space h.greater hamp []
    have hend : Reads (.place (.value t name none (b :: s))) [32] []
        (.beforeAttributeName (t.add name (b :: s))) := reads_step rfl
    exact ⟨b :: s, readAs_refl _, (hstart hvalue).append hend⟩
  · have hfirst : Reads (.place (.value t name none [])) [b] []
        (.place (.value t name none [b])) := by
      obtain ⟨st', _, hstep, hst'⟩ := step_inValue [] hspace.1 hgreater.1
      rw [hst' h38] at hstep
      exact reads_step hstep
    have hinside : InValue t name [b] (.place (.value t name none [b])) := ⟨[], Or.inl rfl⟩
    obtain ⟨st', hst', hvalue⟩ := hinside.reads hspace.2 hgreater.2
    obtain ⟨value, hprefix, hend⟩ := hst'.ends
    refine ⟨value, ⟨?_, fun hno => absurd hno hamp⟩, (hstart (hfirst.append hvalue)).append hend⟩
    obtain ⟨rest, rfl⟩ := hprefix
    rfl

/-! ### The rest of a tag

The tokenizer looks at the names of the attributes only. So a tag that was read with one
value of its first attribute is read alike with any other. -/

/-- The tag with another value of its first attribute. -/
def setValue (v : Bytes) (t : Tag) : Tag :=
  { t with attributes := t.attributes.modifyHead fun p => (p.1, v) }

theorem setValue_add (v : Bytes) {t : Tag} (ht : t.attributes ≠ []) (name value : Bytes) :
    (setValue v t).add name value = setValue v (t.add name value) := by
  obtain ⟨closing, tagName, attributes⟩ := t
  obtain ⟨p, ps, rfl⟩ := List.exists_cons_of_ne_nil ht
  have hnames : (setValue v ⟨closing, tagName, p :: ps⟩).attributes.map Prod.fst =
      (p :: ps).map Prod.fst := rfl
  rw [Tag.add, Tag.add, hnames]
  split <;> rfl

theorem attributes_add {t : Tag} (ht : t.attributes ≠ []) (name value : Bytes) :
    (t.add name value).attributes ≠ [] := by
  rw [Tag.add]
  split
  · exact ht
  · exact List.append_ne_nil_of_left_ne_nil ht _

/-- The states behind the first attribute of a tag, as functions of the tag. -/
inductive Behind : (Tag → State) → Prop
  | value (name : Bytes) (quote : Option UInt8) (read : Bytes) :
    Behind fun t => .place (.value t name quote read)
  | reference (name : Bytes) (quote : Option UInt8) (read raw : Bytes) :
    Behind fun t => .reference (.value t name quote read) raw
  | beforeAttributeName : Behind .beforeAttributeName
  | attributeName (name : Bytes) : Behind fun t => .attributeName t name
  | afterAttributeName (name : Bytes) : Behind fun t => .afterAttributeName t name
  | beforeAttributeValue (name : Bytes) : Behind fun t => .beforeAttributeValue t name

/-- What a byte does to a tag: it ends it, or leads to a state behind its first attribute,
perhaps with one attribute more. -/
inductive Moves (b : UInt8) (st : Tag → State) : Prop
  | ends (add : List (Bytes × Bytes))
    (h : ∀ t, (st t).step b = (.place .data, [.tag (add.foldl (fun t p => t.add p.1 p.2) t)]))
  | goes (add : List (Bytes × Bytes)) (st' : Tag → State) (hst' : Behind st')
    (h : ∀ t, (st t).step b = (st' (add.foldl (fun t p => t.add p.1 p.2) t), []))

theorem moves_value (name : Bytes) (quote : Option UInt8) (read : Bytes) (b : UInt8) :
    Moves b fun t => .place (.value t name quote read) := by
  by_cases hamp : b = 38
  · refine .goes [] _ (.reference name quote read []) fun t => ?_
    exact if_pos hamp
  · cases quote with
    | some q =>
      by_cases hq : b = q
      · refine .goes [(name, read)] _ .beforeAttributeName fun t => ?_
        show Place.step _ b = _
        rw [Place.step, if_neg hamp]
        exact if_pos hq
      · refine .goes [] _ (.value name (some q) (read ++ [b])) fun t => ?_
        show Place.step _ b = _
        rw [Place.step, if_neg hamp]
        exact if_neg hq
    | none =>
      cases hspace : isSpace b with
      | true =>
        refine .goes [(name, read)] _ .beforeAttributeName fun t => ?_
        show Place.step _ b = _
        rw [Place.step, if_neg hamp]
        exact if_pos hspace
      | false =>
        have hno : ¬isSpace b = true := by
          rw [hspace]
          exact Bool.false_ne_true
        by_cases h62 : b = 62
        · refine .ends [(name, read)] fun t => ?_
          show Place.step _ b = _
          rw [Place.step, if_neg hamp]
          exact (if_neg hno).trans (if_pos h62)
        · refine .goes [] _ (.value name none (read ++ [b])) fun t => ?_
          show Place.step _ b = _
          rw [Place.step, if_neg hamp]
          exact (if_neg hno).trans (if_neg h62)

theorem moves_flush (name : Bytes) (quote : Option UInt8) (read raw : Bytes) (b : UInt8) :
    (∃ add : List (Bytes × Bytes), ∀ t : Tag, Place.flush (.value t name quote read) raw b =
        (.place .data, [.tag (add.foldl (fun t p => t.add p.1 p.2) t)])) ∨
      ∃ (add : List (Bytes × Bytes)) (st' : Tag → State), Behind st' ∧
        ∀ t : Tag, Place.flush (.value t name quote read) raw b =
          (st' (add.foldl (fun t p => t.add p.1 p.2) t), []) := by
  have hflush (t : Tag) : Place.flush (.value t name quote read) raw b =
      State.step (.place (.value t name quote (read ++ raw))) b := by
    rw [Place.flush, putAll_value]
    rfl
  rcases moves_value name quote (read ++ raw) b with ⟨add, h⟩ | ⟨add, st', hst', h⟩
  · exact Or.inl ⟨add, fun t => (hflush t).trans (h t)⟩
  · exact Or.inr ⟨add, st', hst', fun t => (hflush t).trans (h t)⟩

theorem moves_reference (name : Bytes) (quote : Option UInt8) (read raw : Bytes) (b : UInt8) :
    Moves b fun t => .reference (.value t name quote read) raw := by
  by_cases hbyte : isReferenceByte b = true
  · exact .goes [] _ (.reference name quote read (raw ++ [b])) fun t => if_pos hbyte
  · have hstep (t : Tag) (h : ∀ c, b = 59 → decodeReference raw ≠ some c) :
        State.step (.reference (.value t name quote read) raw) b =
          Place.flush (.value t name quote read) (38 :: raw) b := by
      rw [State.step, if_neg hbyte]
      split
      · rename_i hsemi
        split
        · rename_i c hc
          exact absurd hc (h c hsemi)
        · rfl
      · rfl
    by_cases hdecodes : ∃ c, b = 59 ∧ decodeReference raw = some c
    · obtain ⟨c, rfl, hc⟩ := hdecodes
      refine .goes [] _ (.value name quote (read ++ [c])) fun t => ?_
      rw [State.step, if_neg hbyte, if_pos rfl, hc]
      rfl
    · have hno (c : UInt8) (hsemi : b = 59) : decodeReference raw ≠ some c := fun hc =>
        hdecodes ⟨c, hsemi, hc⟩
      rcases moves_flush name quote read (38 :: raw) b with ⟨add, h⟩ | ⟨add, st', hst', h⟩
      · exact .ends add fun t => (hstep t hno).trans (h t)
      · exact .goes add st' hst' fun t => (hstep t hno).trans (h t)

theorem Behind.moves {st : Tag → State} (h : Behind st) (b : UInt8) : Moves b st := by
  cases h with
  | value name quote read => exact moves_value name quote read b
  | reference name quote read raw => exact moves_reference name quote read raw b
  | beforeAttributeName =>
    by_cases hblank : isSpace b = true ∨ b = 47
    · exact .goes [] _ .beforeAttributeName fun t => if_pos hblank
    · by_cases h62 : b = 62
      · exact .ends [] fun t => (if_neg hblank).trans (if_pos h62)
      · exact .goes [] _ (.attributeName [lower b]) fun t => (if_neg hblank).trans (if_neg h62)
  | attributeName name =>
    by_cases hspace : isSpace b = true
    · exact .goes [] _ (.afterAttributeName name) fun t => if_pos hspace
    · by_cases h47 : b = 47
      · exact .goes [(name, [])] _ .beforeAttributeName fun t =>
          (if_neg hspace).trans (if_pos h47)
      · by_cases h61 : b = 61
        · exact .goes [] _ (.beforeAttributeValue name) fun t =>
            (if_neg hspace).trans ((if_neg h47).trans (if_pos h61))
        · by_cases h62 : b = 62
          · exact .ends [(name, [])] fun t =>
              (if_neg hspace).trans ((if_neg h47).trans ((if_neg h61).trans (if_pos h62)))
          · exact .goes [] _ (.attributeName (name ++ [lower b])) fun t =>
              (if_neg hspace).trans ((if_neg h47).trans ((if_neg h61).trans (if_neg h62)))
  | afterAttributeName name =>
    by_cases hspace : isSpace b = true
    · exact .goes [] _ (.afterAttributeName name) fun t => if_pos hspace
    · by_cases h47 : b = 47
      · exact .goes [(name, [])] _ .beforeAttributeName fun t =>
          (if_neg hspace).trans (if_pos h47)
      · by_cases h61 : b = 61
        · exact .goes [] _ (.beforeAttributeValue name) fun t =>
            (if_neg hspace).trans ((if_neg h47).trans (if_pos h61))
        · by_cases h62 : b = 62
          · exact .ends [(name, [])] fun t =>
              (if_neg hspace).trans ((if_neg h47).trans ((if_neg h61).trans (if_pos h62)))
          · exact .goes [(name, [])] _ (.attributeName [lower b]) fun t =>
              (if_neg hspace).trans ((if_neg h47).trans ((if_neg h61).trans (if_neg h62)))
  | beforeAttributeValue name =>
    by_cases hspace : isSpace b = true
    · exact .goes [] _ (.beforeAttributeValue name) fun t => if_pos hspace
    · by_cases hquote : b = 34 ∨ b = 39
      · exact .goes [] _ (.value name (some b) []) fun t => (if_neg hspace).trans (if_pos hquote)
      · by_cases h62 : b = 62
        · exact .ends [(name, [])] fun t =>
            (if_neg hspace).trans ((if_neg hquote).trans (if_pos h62))
        · have hstep (t : Tag) : State.step (.beforeAttributeValue t name) b =
              State.step (.place (.value t name none [])) b :=
            (if_neg hspace).trans ((if_neg hquote).trans (if_neg h62))
          rcases moves_value name none [] b with ⟨add, h⟩ | ⟨add, st', hst', h⟩
          · exact .ends add fun t => (hstep t).trans (h t)
          · exact .goes add st' hst' fun t => (hstep t).trans (h t)

/-- The tag that ends with the last byte. -/
def tagEnd : State → Bytes → Option Tag
  | _, [] => none
  | st, b :: s =>
    if (st.step b).2 = [] then tagEnd (st.step b).1 s
    else
      match (st.step b).2, s with
      | [.tag t], [] => some t
      | _, _ => none

theorem tagEnd_behind {st : Tag → State} (hst : Behind st) {s : Bytes} {t t' : Tag}
    (h : tagEnd (st t) s = some t') : ∃ add : List (Bytes × Bytes),
      t' = add.foldl (fun t p => t.add p.1 p.2) t ∧
      ∀ u, Reads (st u) s [.tag (add.foldl (fun t p => t.add p.1 p.2) u)] (.place .data) := by
  induction s generalizing st t with
  | nil => exact absurd h (by simp [tagEnd])
  | cons b s ih =>
    unfold tagEnd at h
    cases hst.moves b with
    | ends add hstep =>
      rw [hstep, if_neg (List.cons_ne_nil _ _)] at h
      cases s with
      | nil => exact ⟨add, (Option.some.inj h).symm, fun u => reads_step (hstep u)⟩
      | cons c s => exact absurd h (by simp)
    | goes add st' hst' hstep =>
      rw [hstep, if_pos rfl] at h
      obtain ⟨more, ht', hreads⟩ := ih hst' h
      refine ⟨add ++ more, by rw [List.foldl_append]; exact ht', fun u => ?_⟩
      rw [List.foldl_append]
      exact (reads_step (hstep u)).append (hreads _)

theorem setValue_foldl (v : Bytes) {t : Tag} (ht : t.attributes ≠ []) (add : List (Bytes × Bytes)) :
    add.foldl (fun t p => t.add p.1 p.2) (setValue v t) =
      setValue v (add.foldl (fun t p => t.add p.1 p.2) t) := by
  induction add generalizing t with
  | nil => rfl
  | cons p add ih =>
    rw [List.foldl_cons, List.foldl_cons, setValue_add v ht]
    exact ih (attributes_add ht p.1 p.2)

/-- **The rest of a tag is read alike** whatever the value of its first attribute is. -/
theorem reads_tagEnd {name key s : Bytes} {t : Tag}
    (h : tagEnd (.beforeAttributeName ⟨false, name, [(key, [])]⟩) s = some t) (v : Bytes) :
    Reads (.beforeAttributeName ⟨false, name, [(key, v)]⟩) s [.tag (setValue v t)]
      (.place .data) := by
  obtain ⟨add, rfl, hreads⟩ := tagEnd_behind .beforeAttributeName h
  have hset := setValue_foldl v (t := ⟨false, name, [(key, [])]⟩) (by simp) add
  rw [← hset]
  exact hreads _

/-! ### Markup and characters -/

def isMarkup : Token → Bool
  | .char _ => false
  | _ => true

theorem filter_chars (cs : Bytes) : (cs.map Token.char).filter isMarkup = [] := by
  rw [List.filter_eq_nil_iff]
  rintro _ hmem
  obtain ⟨c, _, rfl⟩ := List.mem_map.mp hmem
  exact Bool.false_ne_true

/-- The characters among the tokens. -/
def chars (toks : List Token) : Bytes :=
  toks.filterMap fun tok =>
    match tok with
    | .char b => some b
    | _ => none

theorem chars_append (toks toks' : List Token) : chars (toks ++ toks') = chars toks ++ chars toks' :=
  List.filterMap_append

theorem chars_map (cs : Bytes) : chars (cs.map .char) = cs := by
  rw [chars, List.filterMap_map]
  exact List.filterMap_some

end ShareNotes.Lib.HtmlReading
