import ShareNotes.LinkAnchors

/-!
# Links that name a scheme

Two descriptions of a scheme meet in a note's HTML. The pattern that finds links
takes `name://` for any name, and for some names `name:` in any letter case. The
loop that writes the anchors looks for the lower-case strings of `linkSchemes`. So
a link keeps its scheme when its name is written in lower case and `//` follows,
or when one of those strings occurs further behind; every other one becomes a
link to a host of that name.
-/

namespace ShareNotes.LinkSchemes

open ShareNotes.Lib.Decimal ShareNotes.Linkify ShareNotes.LinkScan ShareNotes.LinkedText
open ShareNotes.LinkAnchors

/-! ### The schemes of the pattern -/

/-- What `(?i)` reads as a lower-case letter of the pattern. The long s folds to `s`;
the Kelvin sign folds to `k`, which is in none of the names. -/
def spellings (b : UInt8) : List Bytes :=
  if b = 115 then [[115], [83], [0xC5, 0xBF]] else [[b], [b - 32]]

/-- The text is the pattern in some letter case. -/
inductive EqualFold : Bytes → Bytes → Prop
  | nil : EqualFold [] []
  | cons {b : UInt8} {c n s : Bytes} (hspelling : c ∈ spellings b) (hrest : EqualFold n s) :
    EqualFold (b :: n) (c ++ s)

/-- The names in `otherScheme`. -/
def otherNames : List Bytes :=
  [ascii "bitcoin", ascii "file", ascii "magnet", ascii "mailto", ascii "sms", ascii "tel",
    ascii "xmpp"]

def isLetter (b : UInt8) : Bool := (65 ≤ b && b ≤ 90) || (97 ≤ b && b ≤ 122)

/-- `[a-zA-Z][a-zA-Z.\-+]*://`, with the text behind the colon. -/
def comScheme (name rest : Bytes) : Prop :=
  (∃ b s, name = b :: s ∧ isLetter b ∧ ∀ c ∈ s, isLetter c ∨ c ∈ ascii ".-+") ∧
    ascii "//" <+: rest

/-- `(?i)(bitcoin|file|magnet|mailto|sms|tel|xmpp)(?-i):`. -/
def otherScheme (name : Bytes) : Prop := ∃ n ∈ otherNames, EqualFold n name

/-- The link begins with a scheme that the pattern takes, and goes on with `rest`. -/
def HasScheme (link name rest : Bytes) : Prop :=
  link = name ++ 58 :: rest ∧ (comScheme name rest ∨ otherScheme name)

/-- The names that both the pattern and `linkSchemes` are written for. -/
def knownNames : List Bytes :=
  [ascii "http", ascii "https", ascii "bitcoin", ascii "file", ascii "magnet", ascii "mailto",
    ascii "sms", ascii "tel"]

/-- A known name in any letter case. -/
def Known (name : Bytes) : Prop := ∃ n ∈ knownNames, EqualFold n name

theorem linkSchemes_eq :
    linkSchemes = (knownNames ++ [ascii "smp"]).map fun n => n ++ 58 :: ascii "//" := by
  decide

/-! ### Occurrences around a separator -/

theorem contains_iff {s sub : Bytes} : contains s sub = true ↔ sub <:+: s := by
  rw [contains, List.any_eq_true, List.infix_iff_prefix_suffix]
  constructor
  · rintro ⟨t, ht, hsub⟩
    exact ⟨t, List.isPrefixOf_iff_prefix.mp hsub, (List.mem_tails t s).mp ht⟩
  · rintro ⟨t, hsub, ht⟩
    exact ⟨t, (List.mem_tails t s).mpr ht, List.isPrefixOf_iff_prefix.mpr hsub⟩

/-- A word with the separator in it occurs around the first separator of a text or behind it. -/
theorem infix_separator_iff {α : Type} {c : α} {s t name rest : List α} (hs : c ∉ s)
    (hname : c ∉ name) :
    s ++ c :: t <:+: name ++ c :: rest ↔ (s <:+ name ∧ t <+: rest) ∨ s ++ c :: t <:+: rest := by
  constructor
  · rintro ⟨a, b, h⟩
    rw [← List.append_assoc, List.append_assoc (a ++ s), List.cons_append,
      List.append_eq_append_iff] at h
    rcases h with ⟨d, hd, hrest⟩ | ⟨d, hd, hrest⟩
    · cases d with
      | nil =>
        rw [List.append_nil] at hd
        exact Or.inl ⟨⟨a, hd.symm⟩, ⟨b, (List.cons.inj hrest).2⟩⟩
      | cons x d =>
        rw [List.cons_append, List.cons.injEq] at hrest
        rw [hd, ← hrest.1] at hname
        exact absurd (by simp) hname
    · cases d with
      | nil =>
        rw [List.append_nil] at hd
        exact Or.inl ⟨⟨a, hd⟩, ⟨b, (List.cons.inj hrest).2.symm⟩⟩
      | cons x d =>
        rw [List.cons_append, List.cons.injEq] at hrest
        rw [← hrest.1, List.append_eq_append_iff] at hd
        right
        rcases hd with ⟨e, _, hse⟩ | ⟨e, _, hde⟩
        · rw [hse] at hs
          exact absurd (by simp) hs
        · cases e with
          | nil =>
            rw [List.nil_append] at hde
            rw [← hde] at hs
            exact absurd List.mem_cons_self hs
          | cons y e =>
            rw [List.cons_append, List.cons.injEq] at hde
            refine ⟨e, b, ?_⟩
            rw [hrest.2, hde.2]
            simp only [List.append_assoc, List.cons_append]
  · rintro (⟨⟨a, rfl⟩, ⟨b, rfl⟩⟩ | hrest)
    · exact ⟨a, b, by simp only [List.append_assoc, List.cons_append]⟩
    · exact hrest.trans ⟨name ++ [c], [], by simp⟩

/-! ### Names in any letter case -/

/-- All bytes are lower-case letters. -/
def Lower (s : Bytes) : Prop := ∀ b ∈ s, 97 ≤ b ∧ b ≤ 122

theorem lower_of_listed : ∀ n ∈ knownNames ++ [ascii "smp"], Lower n := by
  have hall : ((knownNames ++ [ascii "smp"]).all fun n =>
      n.all fun b => 97 ≤ b && b ≤ 122) = true := by decide +kernel
  intro n hn b hb
  have h := List.all_eq_true.mp (List.all_eq_true.mp hall n hn) b hb
  rw [Bool.and_eq_true, decide_eq_true_eq, decide_eq_true_eq] at h
  exact h

theorem colon_not_lower {s : Bytes} (hs : Lower s) : 58 ∉ s := fun h => absurd (hs 58 h) (by decide)

/-- A spelling other than the letter itself ends in a byte that is no lower-case letter. -/
theorem spellings_cases {b : UInt8} {c : Bytes} (hb : 97 ≤ b ∧ b ≤ 122) (hc : c ∈ spellings b) :
    c = [b] ∨ ∃ front x, c = front ++ [x] ∧ ¬(97 ≤ x ∧ x ≤ 122) := by
  rw [spellings] at hc
  split at hc
  · rename_i hs
    simp only [List.mem_cons, List.not_mem_nil, or_false] at hc
    rcases hc with rfl | rfl | rfl
    · exact Or.inl (by rw [hs])
    · exact Or.inr ⟨[], 83, rfl, by decide⟩
    · exact Or.inr ⟨[0xC5], 0xBF, rfl, by decide⟩
  · simp only [List.mem_cons, List.not_mem_nil, or_false] at hc
    rcases hc with rfl | rfl
    · exact Or.inl rfl
    · refine Or.inr ⟨[], b - 32, rfl, fun h => ?_⟩
      simp only [UInt8.le_iff_toNat_le, UInt8.toNat_sub] at h hb
      simp only [UInt8.reduceToNat] at h hb
      omega

/-- A lower-case end of a spelling is the letter. -/
theorem suffix_spelling {b : UInt8} {c d : Bytes} (hb : 97 ≤ b ∧ b ≤ 122) (hc : c ∈ spellings b)
    (hd : d <:+ c) (hne : d ≠ []) (hlower : Lower d) : c = [b] ∧ d = [b] := by
  rcases spellings_cases hb hc with rfl | ⟨front, x, rfl, hx⟩
  · rw [← List.nil_append [b], List.suffix_concat_iff] at hd
    obtain ⟨t, rfl, ht⟩ := hd.resolve_left hne
    rw [List.suffix_nil.mp ht]
    exact ⟨rfl, rfl⟩
  · rw [List.suffix_concat_iff] at hd
    obtain ⟨t, rfl, ht⟩ := hd.resolve_left hne
    exact absurd (hlower x (by simp)) hx

theorem EqualFold.eq_of_lower {n s : Bytes} (h : EqualFold n s) (hn : Lower n) (hs : Lower s) :
    s = n := by
  induction h with
  | nil => rfl
  | @cons b c n s hspelling hrest ih =>
    obtain ⟨hb, hn⟩ := List.forall_mem_cons.mp hn
    obtain ⟨hc, hs⟩ := List.forall_mem_append.mp hs
    have hne : c ≠ [] := by
      rcases spellings_cases hb hspelling with rfl | ⟨front, x, rfl, _⟩ <;> simp
    rw [(suffix_spelling hb hspelling List.suffix_rfl hne hc).1, ih hn hs]
    rfl

/-- A lower-case end of a name in any letter case is an end of the pattern, and no
other name has the whole pattern as its end. -/
theorem EqualFold.suffix {n name s : Bytes} (h : EqualFold n name) (hn : Lower n) (hs : Lower s)
    (hsuffix : s <:+ name) : s <:+ n ∧ (s = n → name = n) := by
  induction h with
  | nil => exact ⟨hsuffix, fun _ => rfl⟩
  | @cons b c n name hspelling hrest ih =>
    obtain ⟨hb, hn⟩ := List.forall_mem_cons.mp hn
    obtain ⟨front, hfront⟩ := hsuffix
    rw [List.append_eq_append_iff] at hfront
    rcases hfront with ⟨d, hd, hsd⟩ | ⟨d, hd, hname⟩
    · rw [hsd] at hs
      obtain ⟨hdlower, hnlower⟩ := List.forall_mem_append.mp hs
      rw [hsd, hrest.eq_of_lower hn hnlower]
      by_cases hne : d = []
      · rw [hne, List.nil_append]
        exact ⟨List.suffix_cons b n, fun h => absurd (congrArg List.length h) (by simp)⟩
      · obtain ⟨hcb, hdb⟩ := suffix_spelling hb hspelling ⟨front, hd.symm⟩ hne hdlower
        rw [hcb, hdb]
        exact ⟨List.suffix_rfl, fun _ => rfl⟩
    · have hinner := (ih hn ⟨d, hname.symm⟩).1
      refine ⟨hinner.trans (List.suffix_cons b n), fun h => ?_⟩
      have hlen := hinner.length_le
      rw [h, List.length_cons] at hlen
      omega

theorem equalFold_self {n : Bytes} (hn : Lower n) : EqualFold n n := by
  induction n with
  | nil => exact .nil
  | cons b n ih =>
    have hself : [b] ∈ spellings b := by
      rw [spellings]
      split
      · rename_i hb
        rw [hb]
        exact List.mem_cons_self
      · exact List.mem_cons_self
    exact .cons hself (ih (List.forall_mem_cons.mp hn).2)

theorem known_of_mem {name : Bytes} (hname : name ∈ knownNames) : Known name :=
  ⟨name, hname, equalFold_self (lower_of_listed name (List.mem_append_left _ hname))⟩

theorem colon_notMem {n name : Bytes} (h : EqualFold n name) (hn : Lower n) : 58 ∉ name := by
  induction h with
  | nil => exact List.not_mem_nil
  | @cons b c n name hspelling hrest ih =>
    obtain ⟨hb, hn⟩ := List.forall_mem_cons.mp hn
    rw [List.mem_append, not_or]
    refine ⟨fun hmem => ?_, ih hn⟩
    rw [spellings] at hspelling
    split at hspelling
    · simp only [List.mem_cons, List.not_mem_nil, or_false] at hspelling
      rcases hspelling with rfl | rfl | rfl <;> exact absurd hmem (by decide)
    · simp only [List.mem_cons, List.not_mem_nil, or_false] at hspelling
      simp only [UInt8.le_iff_toNat_le, UInt8.reduceToNat] at hb
      rcases hspelling with rfl | rfl
      · rw [← List.mem_singleton.mp hmem] at hb
        exact absurd hb (by decide)
      · have hsub := congrArg UInt8.toNat (List.mem_singleton.mp hmem)
        rw [UInt8.toNat_sub] at hsub
        simp only [UInt8.reduceToNat] at hsub
        omega

/-! ### The two descriptions together -/

/-- No listed name is a proper end of a known one. -/
theorem listed_end : ∀ k ∈ knownNames, ∀ n ∈ knownNames ++ [ascii "smp"], n <:+ k → n = k := by
  decide +kernel

/-- A listed name ends the name of a link exactly when that is a known name in lower case. -/
theorem exists_listed_suffix_iff {name : Bytes} (hknown : Known name) :
    (∃ n ∈ knownNames ++ [ascii "smp"], n <:+ name) ↔ name ∈ knownNames := by
  obtain ⟨k, hk, hfold⟩ := hknown
  have hlower := lower_of_listed k (List.mem_append_left _ hk)
  constructor
  · rintro ⟨n, hn, hsuffix⟩
    obtain ⟨hend, heq⟩ := hfold.suffix hlower (lower_of_listed n hn) hsuffix
    rw [heq (listed_end k hk n hn hend)]
    exact hk
  · intro hname
    exact ⟨name, List.mem_append_left _ hname, List.suffix_rfl⟩

/-- **Where a listed scheme occurs** in a link with a known name. -/
theorem contains_listed_iff {name rest : Bytes} (hknown : Known name) :
    (∃ scheme ∈ linkSchemes, contains (name ++ 58 :: rest) scheme = true) ↔
      (name ∈ knownNames ∧ ascii "//" <+: rest) ∨
        ∃ scheme ∈ linkSchemes, contains rest scheme = true := by
  have hcolon : 58 ∉ name := by
    obtain ⟨k, hk, hfold⟩ := hknown
    exact colon_notMem hfold (lower_of_listed k (List.mem_append_left _ hk))
  have hlisted : ∀ n ∈ knownNames ++ [ascii "smp"],
      (contains (name ++ 58 :: rest) (n ++ 58 :: ascii "//") = true ↔
        (n <:+ name ∧ ascii "//" <+: rest) ∨ contains rest (n ++ 58 :: ascii "//") = true) := by
    intro n hn
    rw [contains_iff, contains_iff,
      infix_separator_iff (colon_not_lower (lower_of_listed n hn)) hcolon]
  rw [← exists_listed_suffix_iff hknown, linkSchemes_eq]
  simp only [List.mem_map, exists_exists_and_eq_and]
  constructor
  · rintro ⟨n, hn, hcontains⟩
    rcases (hlisted n hn).mp hcontains with ⟨hsuffix, hslashes⟩ | hrest
    · exact Or.inl ⟨⟨n, hn, hsuffix⟩, hslashes⟩
    · exact Or.inr ⟨n, hn, hrest⟩
  · rintro (⟨⟨n, hn, hsuffix⟩, hslashes⟩ | ⟨n, hn, hrest⟩)
    · exact ⟨n, hn, (hlisted n hn).mpr (Or.inl ⟨hsuffix, hslashes⟩)⟩
    · exact ⟨n, hn, (hlisted n hn).mpr (Or.inr hrest)⟩

theorem target_eq_iff {link : Bytes} :
    target link = link ↔ ∃ scheme ∈ linkSchemes, contains link scheme = true := by
  rw [target]
  split
  · rename_i hany
    exact iff_of_true rfl (List.any_eq_true.mp hany)
  · rename_i hnone
    refine iff_of_false (fun h => ?_) fun h => hnone (List.any_eq_true.mpr h)
    have hlen := congrArg List.length h
    rw [List.length_append] at hlen
    exact absurd hlen (by simp [ascii])

/-- **Which links keep their scheme**: the anchor of a link with a known name leads to the link
itself exactly when the name is in lower case and `//` follows, or a listed scheme occurs behind. -/
theorem keeps_scheme_iff {findAllString : Bytes → List Bytes} {fuel : ℕ}
    {text out link name rest : Bytes} (hrun : partialHtmlParser findAllString fuel text = some out)
    (hlink : link ∈ findAllString text) (hscheme : HasScheme link name rest) (hknown : Known name) :
    ∃ ps, partialHtmlPieces findAllString fuel text = some ps ∧ html ps = out ∧
      .anchor link ∈ ps ∧
      (target link = link ↔ (name ∈ knownNames ∧ ascii "//" <+: rest) ∨
        ∃ scheme ∈ linkSchemes, contains rest scheme = true) := by
  obtain ⟨ps, hps, hout⟩ := partialHtmlParser_eq_some_iff.mp hrun
  refine ⟨ps, hps, hout, (anchors_of_pieces hps link).mpr hlink, ?_⟩
  rw [target_eq_iff, hscheme.1, contains_listed_iff hknown]

theorem keeps_scheme_iff_oneLink :
    ∃ ps, partialHtmlPieces oneLink 20 (ascii "see http://a.b!") = some ps ∧
      html ps = ascii "see <a href=http://a.b target=_new>http://a.b</a>!" ∧
      .anchor (ascii "http://a.b") ∈ ps ∧
      (target (ascii "http://a.b") = ascii "http://a.b" ↔
        (ascii "http" ∈ knownNames ∧ ascii "//" <+: ascii "//a.b") ∨
          ∃ scheme ∈ linkSchemes, contains (ascii "//a.b") scheme = true) := by
  have hrun : partialHtmlParser oneLink 20 (ascii "see http://a.b!") =
      some (ascii "see <a href=http://a.b target=_new>http://a.b</a>!") := by decide
  have hcom : comScheme (ascii "http") (ascii "//a.b") :=
    ⟨⟨104, ascii "ttp", by decide, by decide, by decide +kernel⟩, by decide⟩
  exact keeps_scheme_iff hrun (by decide) ⟨by decide, Or.inl hcom⟩ (known_of_mem (by decide))

/-- The pattern takes a mail address without slashes, and its anchor leads to a host `mailto`. -/
theorem mailto_target :
    HasScheme (ascii "mailto:a@b.c") (ascii "mailto") (ascii "a@b.c") ∧ Known (ascii "mailto") ∧
      (∃ ps, partialHtmlPieces (fun text => [text]) 1 (ascii "mailto:a@b.c") = some ps ∧
        partialHtmlParser (fun text => [text]) 1 (ascii "mailto:a@b.c") = some (html ps) ∧
        .anchor (ascii "mailto:a@b.c") ∈ ps) ∧
      target (ascii "mailto:a@b.c") = ascii "http://mailto:a@b.c" := by
  have hname : EqualFold (ascii "mailto") (ascii "mailto") :=
    equalFold_self (lower_of_listed _ (by decide))
  refine ⟨⟨by decide, Or.inr ⟨_, by decide, hname⟩⟩, known_of_mem (by decide),
    ⟨[.anchor (ascii "mailto:a@b.c")], ?_⟩, ?_⟩ <;> decide

end ShareNotes.LinkSchemes
