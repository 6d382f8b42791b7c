import ShareNotes.LinkGaps

/-!
# Where an address is found

The search leaves no place out at which the pattern matches: the first byte of each
match is in one of the links that are found, and the link that starts at its place is
not shorter. An address that starts with a scheme is a match wherever no word runs into
it. Behind a byte that no link contains nothing can start before it, so there the whole
address is in the anchor; behind another byte a link that started before can end inside
of it, as `1.bit` does in `1.bit.q://y`.
-/

namespace ShareNotes.LinkCoverage

open ShareNotes.Lib.Decimal ShareNotes.Lib.Regexp ShareNotes.Lib.Regexp.Pattern
open ShareNotes.Lib.Utf8 ShareNotes.Linkify ShareNotes.LinkScan ShareNotes.LinkedText
open ShareNotes.LinkAnchors ShareNotes.LinkPattern ShareNotes.LinkShape ShareNotes.LinkGaps

variable {u : Unicode} {gtld : Gtld}

/-! ### Addresses in bytes -/

/-- What the pattern takes for the name of any scheme. -/
def isSchemeName : Bytes → Bool
  | [] => false
  | b :: s => isAlpha b.toNat && s.all fun c => isAlpha c.toNat || (codes ".-+").contains c.toNat

/-- An ASCII character that a path may end in. -/
def isEndByte (b : UInt8) : Bool := isAlnum b.toNat || (codes "/-+_&~*%=#$").contains b.toNat

/-- A scheme and the first character of what follows it. -/
def address (name : Bytes) (x : UInt8) : Bytes := name ++ (ascii "://" ++ [x])

theorem lt_of_isAlnum {c : ℕ} (h : isAlnum c = true) : c < 128 := by
  simp only [isAlnum, isAlpha, isDigitCode, Bool.or_eq_true, Bool.and_eq_true,
    decide_eq_true_eq] at h
  omega

theorem matches_lit {s : String} {b : Option Rune} {m post : List Rune}
    (h : m.map Rune.code = codes s) : (lit s).Matches isWord b m post := by
  apply matches_word
  rw [← h, List.forall₂_map_left_iff, List.forall₂_same]
  exact fun c _ => beq_self_eq_true c.code

theorem isEndChar_of_endByte {c : Rune} {x : UInt8} (hx : isEndByte x = true)
    (hc : c.code = x.toNat) : isEndChar u c = true := by
  rw [isEndByte, Bool.or_eq_true] at hx
  rcases hx with halnum | hmark
  · rw [← hc] at halnum
    exact isEndChar_of_alnum (lt_of_isAlnum halnum) halnum
  · have hmem := List.contains_iff_mem.mp hmark
    rw [← hc] at hmem
    have hcases : c.code ∈ codes "/-+_&~*%=#" ∨ c.code = 36 := by
      simp only [codes] at hmem ⊢
      simpa [or_assoc] using hmem
    rw [isEndChar, Bool.or_eq_true, Bool.or_eq_true]
    rcases hcases with hmem | hdollar
    · exact Or.inl (Or.inr (List.contains_iff_mem.mpr hmem))
    · right
      rw [hdollar, u.currency_ascii 36 (by decide)]
      rfl

theorem ascii_schemeName {name : Bytes} (h : isSchemeName name = true) :
    ∀ b ∈ name, b.toNat < 128 := by
  cases name with
  | nil => simp
  | cons b s =>
    rw [isSchemeName, Bool.and_eq_true] at h
    rw [List.forall_mem_cons]
    refine ⟨lt_of_isAlnum (isAlnum_of_isAlpha h.1), fun c hc => ?_⟩
    rcases Bool.or_eq_true_iff.mp (List.all_eq_true.mp h.2 c hc) with halpha | hmark
    · exact lt_of_isAlnum (isAlnum_of_isAlpha halpha)
    · have hall : (codes ".-+").all (fun c => c < 128) = true := by decide
      exact of_decide_eq_true (List.all_eq_true.mp hall _ (List.contains_iff_mem.mp hmark))

/-- **An address is matched** where no word goes on. -/
theorem matches_address {name : Bytes} {x : UInt8} (hname : isSchemeName name = true)
    (hx : isEndByte x = true) {m : List Rune}
    (hm : m.map Rune.code = (address name x).map UInt8.toNat) {b : Option Rune}
    (hb : b.any isWord = false) (post : List Rune) :
    (relaxed u gtld).Matches isWord b m post := by
  rw [address, List.map_append, List.map_append] at hm
  obtain ⟨mn, _, rfl, hmn, hm⟩ := List.map_eq_append_iff.mp hm
  obtain ⟨ms, mx, rfl, hms, hmx⟩ := List.map_eq_append_iff.mp hm
  obtain ⟨d, rfl, hd⟩ := List.map_eq_singleton_iff.mp hmx
  cases name with
  | nil => exact absurd hname (by decide)
  | cons n ns =>
    rw [isSchemeName, Bool.and_eq_true] at hname
    obtain ⟨c, cs, rfl, hc, hcs⟩ := List.map_eq_cons_iff.mp hmn
    have halpha : isAlpha c.code = true := hc ▸ hname.1
    have hrest : ∀ e ∈ cs, (isAlpha e.code || among ".-+" e) = true := by
      intro e he
      have hmem : e.code ∈ ns.map UInt8.toNat := hcs ▸ List.mem_map_of_mem he
      obtain ⟨k, hk, hke⟩ := List.mem_map.mp hmem
      rw [among, ← hke]
      exact List.all_eq_true.mp hname.2 k hk
    have hword : isWord c = true := by rw [isWord, isAlnum_of_isAlpha halpha, Bool.true_or]
    have hscheme : comScheme.Matches isWord b (c :: cs ++ ms) ([d] ++ post) :=
      ⟨[c], cs ++ ms, rfl, ⟨c, halpha, rfl⟩, cs, ms, rfl, matches_star_symbol hrest,
        matches_lit hms⟩
    have hpath : (pathCont u).Matches isWord (behind b (c :: cs ++ ms)) [d] post :=
      matches_plus (pathCont_single (isEndChar_of_endByte hx hd))
    refine Or.inl ⟨[], _, rfl, ⟨rfl, ?_⟩, c :: cs ++ ms, [d], ?_, Or.inl hscheme, hpath⟩
    · show b.any isWord ≠ isWord c
      rw [hb, hword]
      decide
    · exact (List.append_assoc (c :: cs) ms [d]).symm

/-! ### Places -/

theorem offsetsFrom_eq (before : List Rune) (ms : List (List Rune × List Rune)) :
    offsetsFrom (encode before).length ms =
      (placed before ms).map fun x => ((encode x.1).length, encode x.2) := by
  induction ms generalizing before with
  | nil => rfl
  | cons x ms ih =>
    obtain ⟨g, m⟩ := x
    have hrest := ih (before ++ g ++ m)
    rw [encode_append, encode_append, List.length_append, List.length_append] at hrest
    rw [offsetsFrom, placed, List.map_cons, hrest, encode_append, List.length_append]

/-- As many bytes are as many characters. -/
theorem eq_of_encode_length {v w : List Rune} (h : v <+: w)
    (hlen : (encode v).length = (encode w).length) : v = w := by
  obtain ⟨t, rfl⟩ := h
  rw [encode_append, List.length_append] at hlen
  cases t with
  | nil => rw [List.append_nil]
  | cons c t =>
    have hpos := List.length_pos_iff.mpr (encode_ne_nil (m := c :: t) (by simp))
    omega

/-- The characters of a string that ends in no word. -/
theorem not_word_behind {before : Bytes} (h : ∀ b ∈ before.getLast?, isWordByte b = false) :
    (behind none (runes before)).any isWord = false := by
  rcases List.eq_nil_or_concat (runes before) with hnil | ⟨t, c, hconcat⟩
  · rw [hnil]
    rfl
  · rw [List.concat_eq_append] at hconcat
    rw [hconcat, behind_concat, Option.any_some]
    cases hword : isWord c with
    | false => rfl
    | true =>
      have hlt : c.code < 128 := by
        rw [isWord, Bool.or_eq_true, beq_iff_eq] at hword
        rcases hword with halnum | h95
        · exact lt_of_isAlnum halnum
        · omega
      have hlast : before.getLast? = some (UInt8.ofNat c.code) := by
        rw [← flatMap_runes before, hconcat, List.flatMap_append, List.flatMap_singleton,
          (bytes_of_ascii hlt).1, List.getLast?_concat]
      rw [isWord_of_ascii hlt, h _ hlast] at hword
      exact absurd hword (by decide)

theorem ascii_address {name : Bytes} {x : UInt8} (hname : isSchemeName name = true)
    (hx : isEndByte x = true) : ∀ b ∈ address name x, b.toNat < 128 := by
  rw [address, List.forall_mem_append, List.forall_mem_append, List.forall_mem_singleton]
  refine ⟨ascii_schemeName hname, by decide +kernel, ?_⟩
  rcases Bool.or_eq_true_iff.mp hx with halnum | hmark
  · exact lt_of_isAlnum halnum
  · have hall : (codes "/-+_&~*%=#$").all (fun c => c < 128) = true := by decide
    exact of_decide_eq_true (List.all_eq_true.mp hall _ (List.contains_iff_mem.mp hmark))

theorem encode_of_codes {m : List Rune} {s : Bytes} (hs : ∀ b ∈ s, b.toNat < 128)
    (hm : m.map Rune.code = s.map UInt8.toNat) : encode m = s := by
  induction s generalizing m with
  | nil =>
    rw [List.map_nil, List.map_eq_nil_iff] at hm
    rw [hm]
    rfl
  | cons b s ih =>
    obtain ⟨c, m, rfl, hc, hm⟩ := List.map_eq_cons_iff.mp hm
    rw [List.forall_mem_cons] at hs
    show c.bytes ++ encode m = _
    rw [ih hs.2 hm, (bytes_of_ascii (c := c) (by omega)).1, hc, UInt8.ofNat_toNat]
    rfl

/-- **Every address is met by a link.** One that starts at its place begins with it, and
behind a byte that no link contains there is no other. -/
theorem address_covered (u : Unicode) (gtld : Gtld) {before name rest : Bytes} {x : UInt8}
    (hbefore : ∀ b ∈ before.getLast?, isWordByte b = false) (hname : isSchemeName name = true)
    (hx : isEndByte x = true) :
    ∃ o ∈ linkOffsets u gtld (before ++ (address name x ++ rest)),
      o.1 ≤ before.length ∧ before.length < o.1 + o.2.length ∧
      (o.1 = before.length → address name x <+: o.2) ∧
      ((∀ b ∈ before.getLast?, isLinkByte b = false) → o.1 = before.length) := by
  have hascii := ascii_address hname hx
  have hne : address name x ≠ [] := by simp [address]
  obtain ⟨m, hm, hcodes⟩ := runes_ascii_append hascii rest
  have hmne : m ≠ [] := by
    rintro rfl
    exact hne (List.map_eq_nil_iff.mp hcodes.symm)
  have hsplit : runes (before ++ (address name x ++ rest)) = runes before ++ (m ++ runes rest) := by
    rw [runes_append, hm]
    intro b hb
    rw [List.head?_append_of_ne_nil _ hne] at hb
    exact hascii b (List.mem_of_mem_head? hb)
  have hmatch : MatchAt isWord (relaxed u gtld) none (runes before) m (runes rest) :=
    ⟨hmne, matches_address hname hx hcodes (not_word_behind hbefore) (runes rest)⟩
  obtain ⟨y, hy, hpre, ⟨c, w, hcover⟩, hsame⟩ :=
    (finds_findAll isWord (relaxed u gtld) _).covers hsplit hmatch []
  rw [List.nil_append] at hpre hcover hsame
  have hencode : encode (runes before) = before := flatMap_runes before
  have hlen : (encode y.1).length ≤ before.length := by
    obtain ⟨t, ht⟩ := hpre
    have hbytes := congrArg (fun m => (encode m).length) ht
    simp only [encode_append, List.length_append, hencode] at hbytes
    omega
  have hlink : ((encode y.1).length, encode y.2) ∈
      linkOffsets u gtld (before ++ (address name x ++ rest)) := by
    have hoffsets := offsetsFrom_eq [] (linkMatches u gtld (before ++ (address name x ++ rest)))
    rw [linkOffsets]
    exact hoffsets ▸ List.mem_map_of_mem hy
  refine ⟨((encode y.1).length, encode y.2), hlink, hlen, ?_, ?_, ?_⟩
  · have hbytes := congrArg (fun m => (encode m).length) hcover
    have hpos := List.length_pos_iff.mpr (encode_ne_nil (m := c :: w) (by simp))
    simp only [encode_append, List.length_append, hencode] at hbytes
    show _ < (encode y.1).length + (encode y.2).length
    omega
  · intro heq
    have hlength : (encode y.1).length = (encode (runes before)).length := by rw [hencode]; exact heq
    obtain ⟨t, ht⟩ := hsame (eq_of_encode_length hpre hlength)
    rw [← encode_of_codes hascii hcodes]
    exact ⟨encode t, by rw [← encode_append, ht]⟩
  · -- a link that starts before the address holds the byte before it
    intro hlast
    obtain ⟨t, ht⟩ := hpre
    rw [← ht, List.append_assoc, List.append_cancel_left_eq] at hcover
    rw [← hencode, ← ht, encode_append] at hlast ⊢
    have hnil : encode t = [] := by
      rcases List.eq_nil_or_concat (encode t) with hnil | ⟨v, b, hconcat⟩
      · exact hnil
      · rw [List.concat_eq_append] at hconcat
        have hb : isLinkByte b = false := hlast b (by simp [hconcat])
        have hmem : b ∈ encode y.2 := by
          rw [hcover, encode_append, hconcat]
          simp
        have hfound : encode y.2 ∈ findAllString u gtld (before ++ (address name x ++ rest)) := by
          rw [← map_snd_linkOffsets]
          exact List.mem_map_of_mem hlink
        rw [isLinkByte_of_link hfound b hmem] at hb
        exact absurd hb (by decide)
    rw [hnil, List.append_nil]

example : findAllString asciiUnicode pseudoTLDs (ascii "1.bit.q://y") =
    [ascii "1.bit", ascii "q://y"] := by decide +kernel

/-- **So every page that is written has an anchor** for a link that meets the address; at the
start of the text, and behind a byte that no link contains, it starts with the address. -/
theorem address_anchored (u : Unicode) (gtld : Gtld) {before name rest : Bytes} {x : UInt8}
    (hbefore : ∀ b ∈ before.getLast?, isWordByte b = false) (hname : isSchemeName name = true)
    (hx : isEndByte x = true) {fuel : ℕ} {out : Bytes}
    (hrun : partialHtmlParser (findAllString u gtld) fuel (before ++ (address name x ++ rest)) =
      some out) :
    ∃ ps, partialHtmlPieces (findAllString u gtld) fuel (before ++ (address name x ++ rest)) =
        some ps ∧ html ps = out ∧
      ∃ o ∈ linkOffsets u gtld (before ++ (address name x ++ rest)), .anchor o.2 ∈ ps ∧
        o.1 ≤ before.length ∧ before.length < o.1 + o.2.length ∧
        (o.1 = before.length → address name x <+: o.2) ∧
        ((∀ b ∈ before.getLast?, isLinkByte b = false) → o.1 = before.length) := by
  obtain ⟨ps, hps, hout⟩ := partialHtmlParser_eq_some_iff.mp hrun
  obtain ⟨o, ho, hcovers⟩ := address_covered u gtld hbefore hname hx
  refine ⟨ps, hps, hout, o, ho, ?_, hcovers⟩
  rw [anchors_of_pieces hps, ← map_snd_linkOffsets]
  exact List.mem_map_of_mem ho

theorem address_anchored_git :
    ∃ ps, partialHtmlPieces (findAllString asciiUnicode pseudoTLDs) 20
        (ascii "at git+ssh://a b") = some ps ∧
      html ps = ascii "at <a href=http://git+ssh://a target=_new>git+ssh://a</a> " ∧
      ∃ link, .anchor link ∈ ps ∧ ascii "git+ssh://a" <+: link := by
  have hrun : partialHtmlParser (findAllString asciiUnicode pseudoTLDs) 20
      (ascii "at " ++ (address (ascii "git+ssh") 97 ++ ascii " b")) =
        some (ascii "at <a href=http://git+ssh://a target=_new>git+ssh://a</a> ") := by
    decide +kernel
  obtain ⟨ps, hps, hout, o, _, hanchor, _, _, hstarts, hplace⟩ := address_anchored asciiUnicode
    pseudoTLDs (by decide +kernel) (by decide +kernel) (by decide +kernel) hrun
  exact ⟨ps, hps, hout, o.2, hanchor, hstarts (hplace (by decide +kernel))⟩

end ShareNotes.LinkCoverage
