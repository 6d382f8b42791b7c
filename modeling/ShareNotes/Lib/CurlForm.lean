import ShareNotes.Lib.Decimal

/-!
# Form arguments of curl

The argument of `-F` is `name=value`, and the value is written in a small
language that the manual of curl describes. A value that starts with `@` or `<`
names a file, and one that starts with `(` opens a nested form. Otherwise it is
the content of the field: a string in double quotes, with backslashes before the
quotes and backslashes in it, or else the text up to the first semicolon, without
blanks at its ends. Options such as `type=` follow after a semicolon.

`readValue_eq_content_iff` says which values are read as they stand, and
`readValue_quoted_iff` what a quoted value has to look like.
-/

namespace ShareNotes.Lib.CurlForm

open ShareNotes.Lib.Decimal

/-- What the value of a field stands for; a content comes with its options. -/
inductive Part
  | content (data options : Bytes)
  | fileUpload (path : Bytes)
  | fileContent (path : Bytes)
  | multipart (options : Bytes)
  deriving DecidableEq

def isSpace (b : UInt8) : Bool := b == 32 || (9 ≤ b.toNat && b.toNat ≤ 13)

/-- The string up to a closing quote, and what follows the quote. -/
def quotedWord : Bytes → Option (Bytes × Bytes)
  | [] => none
  | [b] => if b = 34 then some ([], []) else none
  | b :: c :: rest =>
    if b = 34 then some ([], c :: rest)
    else if b = 92 ∧ (c = 92 ∨ c = 34) then (quotedWord rest).map fun p => (c :: p.1, p.2)
    else (quotedWord (c :: rest)).map fun p => (b :: p.1, p.2)

/-- From the first semicolon on. -/
def fromSemicolon (s : Bytes) : Bytes := s.dropWhile fun b => b != 59

/-- The text up to the first semicolon without blanks at its end, and the options. -/
def plainWord (s : Bytes) : Bytes × Bytes :=
  ((s.takeWhile fun b => b != 59).rdropWhile isSpace, fromSemicolon s)

/-- A quote that is not closed is an ordinary byte. -/
def word (s : Bytes) : Bytes × Bytes :=
  (if s.head? = some 34 then quotedWord s.tail else none).elim (plainWord s)
    fun p => (p.1, fromSemicolon p.2)

def readValue (value : Bytes) : Part :=
  if value.head? = some 64 then .fileUpload value.tail
  else if value.head? = some 60 then .fileContent value.tail
  else if value.head? = some 40 then .multipart value.tail
  else
    let p := word (value.dropWhile isSpace)
    .content p.1 p.2

/-- `name=value`; an argument without an equals sign is an error. -/
def readField (arg : Bytes) : Option (Bytes × Part) :=
  if 61 ∈ arg then
    some (arg.takeWhile fun b => b != 61, readValue (arg.dropWhile fun b => b != 61).tail)
  else none

/-- The fields that a list of arguments posts. -/
def postedFields : List Bytes → List (Option (Bytes × Part))
  | flag :: value :: rest =>
    if flag = ascii "-F" then readField value :: postedFields rest
    else postedFields (value :: rest)
  | _ => []

example : readValue (ascii "a;type=text/html") = .content (ascii "a") (ascii ";type=text/html") := by
  decide

/-! ### Values that stand for themselves -/

/-- Nothing in the value is special. -/
structure Literal (value : Bytes) : Prop where
  unmarked : value.head? ≠ some 64 ∧ value.head? ≠ some 60 ∧ value.head? ≠ some 40
  noOption : 59 ∉ value
  noBlanks : ∀ b, value.head? = some b ∨ value.getLast? = some b → isSpace b = false
  unquoted : value.head? = some 34 → quotedWord value.tail = none

theorem quotedWord_length {s : Bytes} {p : Bytes × Bytes} (h : quotedWord s = some p) :
    p.1.length + p.2.length + 1 ≤ s.length := by
  induction s using quotedWord.induct generalizing p with
  | case1 => exact absurd h (by simp [quotedWord])
  | case2 =>
    rw [quotedWord, if_pos rfl] at h
    rw [← Option.some.inj h]
    simp
  | case3 b hb =>
    rw [quotedWord, if_neg hb] at h
    exact absurd h (by simp)
  | case4 c rest =>
    rw [quotedWord, if_pos rfl] at h
    rw [← Option.some.inj h]
    simp
  | case5 b c rest hb hescape ih =>
    rw [quotedWord, if_neg hb, if_pos hescape, Option.map_eq_some_iff] at h
    obtain ⟨q, hq, rfl⟩ := h
    have := ih hq
    simp only [List.length_cons]
    omega
  | case6 b c rest hb hescape ih =>
    rw [quotedWord, if_neg hb, if_neg hescape, Option.map_eq_some_iff] at h
    obtain ⟨q, hq, rfl⟩ := h
    have := ih hq
    simp only [List.length_cons] at this ⊢
    omega

theorem fromSemicolon_eq_nil_iff (s : Bytes) : fromSemicolon s = [] ↔ 59 ∉ s := by
  rw [fromSemicolon, List.dropWhile_eq_nil_iff]
  constructor
  · intro h hmem
    exact absurd (h 59 hmem) (by decide)
  · intro h b hb
    rw [bne_iff_ne]
    exact fun heq => h (heq ▸ hb)

/-- Without a semicolon only blanks at the end are cut off. -/
theorem plainWord_eq {s : Bytes} (h : 59 ∉ s) : plainWord s = (s.rdropWhile isSpace, []) := by
  have hall : ∀ b ∈ s, (b != 59) = true := by
    intro b hb
    rw [bne_iff_ne]
    exact fun heq => h (heq ▸ hb)
  rw [plainWord, List.takeWhile_eq_self_iff.mpr hall, (fromSemicolon_eq_nil_iff s).mpr h]

/-- The first byte of a value is not dropped as a blank. -/
theorem dropWhile_isSpace_eq {value : Bytes} (h : ∀ b, value.head? = some b → isSpace b = false) :
    value.dropWhile isSpace = value := by
  cases value with
  | nil => rfl
  | cons b value => rw [List.dropWhile_cons_of_neg (by rw [h b rfl]; decide)]

theorem rdropWhile_isSpace_eq {value : Bytes}
    (h : ∀ b, value.getLast? = some b → isSpace b = false) : value.rdropWhile isSpace = value := by
  rw [List.rdropWhile_eq_self_iff]
  intro hne
  rw [h _ (List.getLast?_eq_some_getLast hne)]
  decide

/-- A word that is as long as what it was read from is all of it. -/
theorem word_eq_self {s value : Bytes} (h : word s = (value, [])) (hle : s.length ≤ value.length) :
    59 ∉ s ∧ s.rdropWhile isSpace = s ∧ value = s ∧ (s.head? = some 34 → quotedWord s.tail = none) := by
  rw [word] at h
  cases hquoted : (if s.head? = some 34 then quotedWord s.tail else none) with
  | some p =>
    obtain ⟨_, hword⟩ := Option.ite_none_right_eq_some.mp hquoted
    have hshort := quotedWord_length hword
    rw [hquoted, Option.elim_some] at h
    have hvalue : p.1 = value := congrArg Prod.fst h
    rw [List.length_tail, hvalue] at hshort
    omega
  | none =>
    rw [hquoted, Option.elim_none] at h
    have hnone : 59 ∉ s := (fromSemicolon_eq_nil_iff s).mp (congrArg Prod.snd h)
    rw [plainWord_eq hnone] at h
    have hvalue : s.rdropWhile isSpace = value := congrArg Prod.fst h
    have hself : s.rdropWhile isSpace = s := by
      refine (List.rdropWhile_prefix isSpace s).eq_of_length_le ?_
      rw [hvalue]
      exact hle
    refine ⟨hnone, hself, hvalue.symm.trans hself, fun hhead => ?_⟩
    rw [if_pos hhead] at hquoted
    exact hquoted

/-- **The values that are read as they stand.** -/
theorem readValue_eq_content_iff (value : Bytes) :
    readValue value = .content value [] ↔ Literal value := by
  constructor
  · intro h
    have h64 : value.head? ≠ some 64 := fun hh => by
      rw [readValue, if_pos hh] at h
      exact absurd h (by simp)
    have h60 : value.head? ≠ some 60 := fun hh => by
      rw [readValue, if_neg h64, if_pos hh] at h
      exact absurd h (by simp)
    have h40 : value.head? ≠ some 40 := fun hh => by
      rw [readValue, if_neg h64, if_neg h60, if_pos hh] at h
      exact absurd h (by simp)
    rw [readValue, if_neg h64, if_neg h60, if_neg h40] at h
    obtain ⟨hdata, hoptions⟩ := Part.content.inj h
    have hsuffix : value.dropWhile isSpace <:+ value := List.dropWhile_suffix _
    obtain ⟨hnone, hright, heq, hquote⟩ := word_eq_self (Prod.ext hdata hoptions) hsuffix.length_le
    rw [← heq] at hnone hright hquote
    refine ⟨⟨h64, h60, h40⟩, hnone, ?_, hquote⟩
    intro b hb
    rcases hb with hfirst | hlast
    · cases value with
      | nil => exact absurd hfirst (by simp)
      | cons c value =>
        rw [List.head?_cons, Option.some.injEq] at hfirst
        have hnot := List.dropWhile_eq_self_iff.mp heq.symm (by simp)
        rw [List.getElem_cons_zero, hfirst] at hnot
        exact Bool.eq_false_iff.mpr hnot
    · obtain ⟨front, rfl⟩ := List.getLast?_eq_some_iff.mp hlast
      have hnot := List.rdropWhile_eq_self_iff.mp hright (by simp)
      rw [List.getLast_append_singleton] at hnot
      exact Bool.eq_false_iff.mpr hnot
  · intro ⟨⟨h64, h60, h40⟩, hnone, hblanks, hquote⟩
    rw [readValue, if_neg h64, if_neg h60, if_neg h40,
      dropWhile_isSpace_eq fun b hb => hblanks b (Or.inl hb)]
    have hword : word value = (value, []) := by
      have hplain : (if value.head? = some 34 then quotedWord value.tail else none) = none := by
        by_cases hhead : value.head? = some 34
        · rw [if_pos hhead, hquote hhead]
        · rw [if_neg hhead]
      rw [word, hplain, Option.elim_none, plainWord_eq hnone,
        rdropWhile_isSpace_eq fun b hb => hblanks b (Or.inr hb)]
    rw [hword]

/-! ### Quoted values -/

/-- Neither a quote nor two backslashes in a row. -/
def Quotable (s : Bytes) : Prop := 34 ∉ s ∧ ¬[92, 92] <:+: s

theorem quotedWord_plain {s : Bytes} (h34 : 34 ∉ s) (h92 : 92 ∉ s) :
    quotedWord (s ++ [34]) = some (s, []) := by
  induction s with
  | nil => rfl
  | cons b s ih =>
    rw [List.mem_cons, not_or] at h34 h92
    obtain ⟨c, rest, hrest⟩ : ∃ c rest, s ++ [34] = c :: rest :=
      List.exists_cons_of_ne_nil (by simp)
    have hword := ih h34.2 h92.2
    rw [hrest] at hword
    rw [List.cons_append, hrest, quotedWord, if_neg (Ne.symm h34.1),
      if_neg fun h => h92.1 h.1.symm, hword]
    rfl

theorem quotable_cons_iff {b c : UInt8} {rest : Bytes} (hb : b ≠ 34)
    (hescape : ¬(b = 92 ∧ (c = 92 ∨ c = 34))) :
    Quotable (b :: c :: rest) ↔ Quotable (c :: rest) := by
  have hpair : ¬[92, 92] <+: b :: c :: rest := by
    rw [List.cons_prefix_cons, List.cons_prefix_cons]
    exact fun h => hescape ⟨h.1.symm, Or.inl h.2.1.symm⟩
  rw [Quotable, Quotable, List.mem_cons, or_iff_right (Ne.symm hb), List.infix_cons_iff,
    or_iff_right hpair]

theorem not_quotable_escape {b c : UInt8} {rest : Bytes} (hescape : b = 92 ∧ (c = 92 ∨ c = 34)) :
    ¬Quotable (b :: c :: rest) := by
  intro ⟨h34, hpair⟩
  rcases hescape with ⟨rfl, rfl | rfl⟩
  · exact hpair ⟨[], rest, rfl⟩
  · exact h34 (by simp)

/-- **What can stand between quotes.** -/
theorem quotedWord_eq_iff {tail : Bytes} (htail : tail ≠ []) (h34 : 34 ∉ tail) (h92 : 92 ∉ tail)
    (s : Bytes) :
    quotedWord (s ++ (tail ++ [34])) = some (s ++ tail, []) ↔ Quotable s := by
  have hquoted := quotedWord_plain h34 h92
  obtain ⟨d, tail', rfl⟩ := List.exists_cons_of_ne_nil htail
  rw [List.mem_cons, not_or] at h34 h92
  induction s using quotedWord.induct with
  | case1 =>
    refine iff_of_true hquoted ⟨by simp, ?_⟩
    rw [List.infix_nil]
    simp
  | case2 =>
    refine iff_of_false ?_ fun h => h.1 (by simp)
    show quotedWord (34 :: d :: (tail' ++ [34])) ≠ _
    rw [quotedWord, if_pos rfl]
    simp
  | case3 b hb =>
    refine iff_of_true ?_ ⟨by simpa using Ne.symm hb, fun h => by simpa using h.length_le⟩
    show quotedWord (b :: d :: (tail' ++ [34])) = _
    have hescape : ¬(b = 92 ∧ (d = 92 ∨ d = 34)) := fun h =>
      h.2.elim (fun h => h92.1 h.symm) fun h => h34.1 h.symm
    rw [quotedWord, if_neg hb, if_neg hescape]
    show (quotedWord (d :: tail' ++ [34])).map _ = _
    rw [hquoted]
    rfl
  | case4 c rest =>
    refine iff_of_false ?_ fun h => h.1 (by simp)
    show quotedWord (34 :: c :: (rest ++ (d :: tail' ++ [34]))) ≠ _
    rw [quotedWord, if_pos rfl]
    simp
  | case5 b c rest hb hescape ih =>
    refine iff_of_false ?_ (not_quotable_escape hescape)
    show quotedWord (b :: c :: (rest ++ (d :: tail' ++ [34]))) ≠ _
    rw [quotedWord, if_neg hb, if_pos hescape]
    intro h
    -- the escape is read as one byte, so the word is too short
    obtain ⟨q, hq, hword⟩ := Option.map_eq_some_iff.mp h
    have hshort := quotedWord_length hq
    have hlen := congrArg (fun p => p.1.length) hword
    simp only [List.length_append, List.length_cons, List.length_nil] at hshort hlen
    omega
  | case6 b c rest hb hescape ih =>
    rw [quotable_cons_iff hb hescape]
    refine Iff.trans ?_ ih
    show quotedWord (b :: c :: (rest ++ (d :: tail' ++ [34]))) = some (b :: (c :: rest ++ d :: tail'), [])
      ↔ _
    rw [quotedWord, if_neg hb, if_neg hescape]
    constructor
    · intro h
      obtain ⟨q, hq, hword⟩ := Option.map_eq_some_iff.mp h
      rw [Prod.mk.injEq, List.cons.injEq] at hword
      exact hq.trans (congrArg some (Prod.ext hword.1.2 hword.2))
    · intro h
      have h' : quotedWord (c :: (rest ++ (d :: tail' ++ [34]))) = some (c :: rest ++ d :: tail', []) := h
      rw [h']
      rfl

/-- **A value in quotes** is read as what stands between them. -/
theorem readValue_quoted_iff {tail : Bytes} (htail : tail ≠ []) (h34 : 34 ∉ tail) (h92 : 92 ∉ tail)
    (s : Bytes) :
    readValue (34 :: (s ++ (tail ++ [34]))) = .content (s ++ tail) [] ↔ Quotable s := by
  rw [← quotedWord_eq_iff htail h34 h92]
  have hread : readValue (34 :: (s ++ (tail ++ [34]))) =
      .content (word (34 :: (s ++ (tail ++ [34])))).1 (word (34 :: (s ++ (tail ++ [34])))).2 := rfl
  have hword : word (34 :: (s ++ (tail ++ [34]))) =
      (quotedWord (s ++ (tail ++ [34]))).elim (plainWord (34 :: (s ++ (tail ++ [34]))))
        fun p => (p.1, fromSemicolon p.2) := rfl
  rw [hread, hword]
  cases hquoted : quotedWord (s ++ (tail ++ [34])) with
  | some p =>
    have hlen := quotedWord_length hquoted
    rw [Option.elim_some]
    constructor
    · intro h
      obtain ⟨hdata, _⟩ := Part.content.inj h
      have hrest : p.2 = [] := by
        rw [← List.length_eq_zero_iff]
        rw [hdata] at hlen
        simp only [List.length_append, List.length_cons, List.length_nil] at hlen
        omega
      exact congrArg some (Prod.ext hdata hrest)
    · intro h
      rw [Option.some.inj h]
      rfl
  | none =>
    rw [Option.elim_none]
    refine iff_of_false (fun h => ?_) (by simp)
    -- without options nothing but blanks is cut off, and the value ends with a quote
    obtain ⟨hdata, hoptions⟩ := Part.content.inj h
    rw [plainWord_eq ((fromSemicolon_eq_nil_iff _).mp hoptions)] at hdata
    have hlast : (34 :: (s ++ (tail ++ [34]))).rdropWhile isSpace = 34 :: (s ++ (tail ++ [34])) := by
      apply rdropWhile_isSpace_eq
      intro b hb
      have hsplit : 34 :: (s ++ (tail ++ [34])) = (34 :: (s ++ tail)) ++ [34] := by simp
      rw [hsplit, List.getLast?_concat, Option.some.injEq] at hb
      rw [← hb]
      decide
    rw [hlast] at hdata
    have hlen := congrArg List.length hdata
    simp only [List.length_append, List.length_cons, List.length_nil] at hlen
    omega

end ShareNotes.Lib.CurlForm
