import ShareNotes.LinkAnchors
import ShareNotes.LinkShape

/-!
# Links that touch

The loop of `partialHtmlParser` never finds a link that starts where the one before
ends. Since a match is the longest at its place, and one without a path ends at a word
boundary, this takes a colon at the place where the two meet, or a character beyond
ASCII. So the loop ends on every ASCII text in which no colon has a colon, a letter, a
digit or an underscore behind it.
-/

namespace ShareNotes.LinkGaps

open ShareNotes.Lib.Decimal ShareNotes.Lib.Regexp ShareNotes.Lib.Regexp.Pattern
open ShareNotes.Lib.Utf8 ShareNotes.Lib.Placements ShareNotes.Linkify ShareNotes.LinkScan ShareNotes.LinkedText
open ShareNotes.LinkAnchors ShareNotes.LinkPattern ShareNotes.LinkShape

variable {u : Unicode} {gtld : Gtld} {b : Option Rune} {m m' post : List Rune}

/-! ### Where two matches meet -/

theorem isEndChar_of_alnum {f : Rune} (hf : f.code < 128) (halnum : isAlnum f.code = true) :
    isEndChar u f = true := by
  rw [isEndChar, isIriChar, u.letter_ascii _ hf, u.number_ascii _ hf]
  have hiri : (isAlpha f.code || isDigitCode f.code) = true := halnum
  rw [hiri, Bool.true_or, Bool.true_or]

/-- A path, or an end character alone, is a path again with one more end character. -/
theorem pathCont_single {f : Rune} (hf : isEndChar u f = true) :
    (seq (midChars u) (plus (alt (wellAll u) (symbol (isEndChar u))))).Matches isWord b [f] post :=
  ⟨[], [f], rfl, .nil, matches_plus (Or.inr ⟨f, hf, rfl⟩)⟩

theorem pathCont_concat {f : Rune} (hf : isEndChar u f = true)
    (hm : (pathCont u).Matches isWord b m (f :: post)) :
    (pathCont u).Matches isWord b (m ++ [f]) post :=
  matches_plus_append hm (pathCont_single hf)

/-- A match with a scheme goes on with an end character. -/
theorem strict_concat {f : Rune} (hf : isEndChar u f = true)
    (hm : (strict u).Matches isWord b m (f :: post)) :
    (strict u).Matches isWord b (m ++ [f]) post := by
  obtain ⟨m₁, _, rfl, h₁, s, p, rfl, hs, hp⟩ := hm
  refine ⟨m₁, s ++ (p ++ [f]), by simp, ?_, s, p ++ [f], rfl, ?_, pathCont_concat hf hp⟩
  · simpa using h₁
  · simpa using hs

/-- The last character of a host with its port. -/
theorem hostPort_last {h p : List Rune} {post post' : List Rune}
    (hh : (hostName u gtld).Matches isWord b h post)
    (hp : port.Matches isWord (behind b h) p post') :
    ∃ e, (h ++ p).getLast? = some e ∧ In (classOf ":") e := by
  have hne : h ≠ [] := hh.ne_nil rfl
  have hends := (wide_classOf ":").endsIn_hostPort (by decide) u gtld
  obtain ⟨e, he⟩ : ∃ e, (h ++ p).getLast? = some e :=
    ⟨_, List.getLast?_eq_some_getLast (List.append_ne_nil_of_left_ne_nil hne p)⟩
  refine ⟨e, he, ?_⟩
  rw [List.getLast?_append] at he
  cases hlast : p.getLast? with
  | none =>
    rw [hlast, Option.none_or] at he
    exact hh.endsIn hends.1 e he
  | some e' =>
    rw [hlast, Option.some_or] at he
    exact hp.endsIn hends.2 e (hlast.trans he)

/-- A match without a scheme goes on with an end character, or ends at a word boundary. -/
theorem webURL_concat {f : Rune} (hf : isEndChar u f = true)
    (hm : (webURL u gtld).Matches isWord b m (f :: post)) :
    (webURL u gtld).Matches isWord b (m ++ [f]) post ∨
      ∃ e, m.getLast? = some e ∧ In (classOf ":") e ∧ isWord e ≠ isWord f := by
  obtain ⟨h, _, rfl, hh, p, q, rfl, hp, hq⟩ := hm
  -- the host and the port stay what they are when the path gets longer
  have hlonger : ∀ q', (path u).Matches isWord (behind (behind b h) p) q' post →
      q' ++ post = q ++ f :: post →
      (webURL u gtld).Matches isWord b (h ++ (p ++ q')) post := by
    intro q' hq' heq
    refine ⟨h, p ++ q', rfl, ?_, p, q', rfl, ?_, hq'⟩
    · rw [List.append_assoc, heq, ← List.append_assoc]
      exact hh
    · rw [heq]
      exact hp
  rw [List.append_assoc, List.append_assoc]
  rw [path, matches_oneOf] at hq
  simp only [List.mem_cons, List.not_mem_nil, or_false, exists_eq_or_imp, exists_eq_left] at hq
  have hpath {q' : List Rune} (hq' : (seq (lit "/") (pathCont u)).Matches isWord
      (behind (behind b h) p) q' post) : (path u).Matches isWord (behind (behind b h) p) q' post :=
    matches_oneOf.mpr ⟨_, List.mem_cons_of_mem _ List.mem_cons_self, hq'⟩
  rcases hq with hq | ⟨q₁, q₂, rfl, hq₁, hq₂⟩ | ⟨rfl, hq⟩ | ⟨_, hq⟩
  · left
    apply hlonger (q ++ [f]) _ (by simp)
    exact hpath ⟨q, [f], rfl, hq, matches_plus (pathCont_single hf)⟩
  · left
    apply hlonger (q₁ ++ q₂ ++ [f]) _ (by simp)
    refine hpath ⟨q₁, q₂ ++ [f], by simp, ?_, pathCont_concat hf hq₂⟩
    rw [List.append_assoc]
    exact hq₁
  · right
    obtain ⟨e, he, hin⟩ := hostPort_last hh hp
    refine ⟨e, by rw [List.append_nil]; exact he, hin, ?_⟩
    rw [← behind_append, behind, he, Option.some_or] at hq
    exact hq
  · exact absurd hq (by simp)

/-! A match that starts with a colon starts with two. -/

def TwoColons (m : List Rune) : Prop :=
  ∀ c n, m = c :: n → c.code = 58 → ∃ d n', n = d :: n' ∧ d.code = 58

theorem twoColons_of_startsIn {r : Pattern Rune} (hr : r.StartsIn (In fun c => c != 58)) :
    Ensures isWord r TwoColons := by
  rintro b _ post hm c n rfl hc
  have hfirst : In (fun c => c != 58) c := hm.startsIn hr c rfl
  rw [In, hc] at hfirst
  exact absurd hfirst (by decide)

theorem wide_notColon : Wide fun c => c != 58 where
  beyond c hc := by
    rw [bne_iff_ne]
    omega
  alnum c hc := by
    rw [bne_iff_ne]
    rintro rfl
    exact absurd hc (by decide)

/-- One more colon behind the first. -/
theorem twoColons_seq {s : Pattern Rune} (hs : s.nullable = false)
    (hcolon : s.StartsIn (In fun c => c == 58)) :
    Ensures isWord (seq (lit ":") s) TwoColons := by
  rintro b _ post ⟨m₁, m₂, rfl, h₁, h₂⟩ c n hm _
  obtain ⟨_, _, rfl, ⟨x, _, rfl⟩, rfl⟩ := h₁
  obtain ⟨d, n', rfl⟩ := List.exists_cons_of_ne_nil (h₂.ne_nil hs)
  have hn := (List.cons.inj hm).2
  exact ⟨d, n', hn.symm, beq_iff_eq.mp (h₂.startsIn hcolon d rfl)⟩

theorem twoColons_ipv6Addr : Ensures isWord ipv6Addr TwoColons := by
  have hcolon : (lit ":").StartsIn (In fun c => c == 58) := (uses_lit (by decide)).startsIn
  have hgroup : colonGroup.StartsIn (In fun c => c == 58) := startsIn_seq rfl hcolon _
  have hhex : hexGroup.StartsIn (In fun c => c != 58) := (uses_hexGroup wide_notColon).startsIn
  have hgroupColon : groupColon.StartsIn (In fun c => c != 58) := startsIn_seq rfl hhex _
  have hlast : lastGroups.StartsIn (In fun c => c == 58) :=
    ⟨startsIn_seq rfl hgroup _, startsIn_seq rfl hcolon _⟩
  have hgroups : (upTo colonGroup 5).StartsIn (In fun c => c == 58) :=
    ⟨startsIn_seq rfl hgroup _, trivial⟩
  have htail : (seq (upTo colonGroup 5) lastGroups).StartsIn (In fun c => c == 58) :=
    ⟨hgroups, fun _ => hlast⟩
  refine ensures_oneOf ?_
  simp only [List.forall_mem_cons]
  refine ⟨?_, ?_, twoColons_of_startsIn ?_, by simp⟩
  · intro b m post hm
    rcases matches_alt_seq.mp hm with hm | hm
    · exact twoColons_of_startsIn (startsIn_seq rfl (startsIn_seq rfl hgroupColon _) _) b m post hm
    · exact twoColons_seq rfl htail b m post (matches_seq_assoc.mp hm)
  · intro b m post hm
    rcases matches_alt_seq.mp hm with hm | hm
    · exact twoColons_of_startsIn (startsIn_seq rfl (startsIn_seq rfl hgroupColon _) _) b m post hm
    · exact twoColons_seq rfl hgroup b m post hm
  · exact startsIn_seq rfl (startsIn_seq rfl hgroupColon _) _

theorem TwoColons.append {m : List Rune} (hm : TwoColons m) (hne : m ≠ []) (n : List Rune) :
    TwoColons (m ++ n) := by
  intro c n' heq hc
  obtain ⟨x, m, rfl⟩ := List.exists_cons_of_ne_nil hne
  obtain ⟨rfl, rfl⟩ := List.cons.inj heq
  obtain ⟨d, m', rfl, hd⟩ := hm x m rfl hc
  exact ⟨d, m' ++ n, rfl, hd⟩

theorem twoColons_relaxed : Ensures isWord (relaxed u gtld) TwoColons := by
  have hhost : Ensures isWord (hostName u gtld) fun m => m ≠ [] ∧ TwoColons m := by
    have hcolons : Ensures isWord (hostName u gtld) TwoColons :=
      ensures_alt (twoColons_of_startsIn wide_notColon.startsIn_site)
        (ensures_alt (twoColons_of_startsIn wide_notColon.startsIn_ipv4Addr) twoColons_ipv6Addr)
    exact fun b m post hm => ⟨hm.ne_nil rfl, hcolons b m post hm⟩
  refine ensures_alt (twoColons_of_startsIn wide_notColon.startsIn_strict) ?_
  have htail : Ensures isWord (seq port (path u)) fun _ => True := fun _ _ _ _ => trivial
  exact ensures_seq hhost htail fun m n hm _ => hm.2.append hm.1 n

/-! ### Touching -/

/-- **Where two matches touch** there is a colon, or a character beyond ASCII. -/
theorem touching (h : Touching isWord (relaxed u gtld) b m m' post) :
    ∃ e f n, m.getLast? = some e ∧ m' = f :: n ∧
      (128 ≤ e.code ∨ 128 ≤ f.code ∨ (e.code = 58 ∧ isWord f = true) ∨
        (f.code = 58 ∧ ∃ d n', n = d :: n' ∧ d.code = 58)) := by
  obtain ⟨f, n, rfl⟩ := List.exists_cons_of_ne_nil h.second.1
  refine ⟨_, f, n, List.getLast?_eq_some_getLast h.first.1, rfl, ?_⟩
  by_cases hlt : f.code < 128
  · have hfirst : In (classOf ":") f :=
      h.second.2.startsIn ((wide_classOf ":").startsIn_relaxed (by decide)) f rfl
    rw [In, classOf, decide_eq_false (Nat.not_le_of_lt hlt), Bool.false_or, Bool.or_eq_true]
      at hfirst
    rcases hfirst with halnum | hcolon
    · have hend := isEndChar_of_alnum (u := u) hlt halnum
      have hword : isWord f = true := by rw [isWord, halnum, Bool.true_or]
      -- the first match is the longest
      have hnot : ¬(relaxed u gtld).Matches isWord b (m ++ [f]) (n ++ post) := by
        intro hm
        have hlen := h.longest (m ++ [f]) (n ++ post) (by simp) ⟨by simp, hm⟩
        simp at hlen
      rcases h.first.2 with hm | hm
      · exact absurd (Or.inl (strict_concat hend hm)) hnot
      · rcases webURL_concat hend hm with hm | ⟨e, he, hin, hne⟩
        · exact absurd (Or.inr hm) hnot
        · rw [List.getLast?_eq_some_getLast h.first.1, Option.some_inj] at he
          rw [he]
          rw [In, classOf, Bool.or_eq_true, Bool.or_eq_true, decide_eq_true_eq] at hin
          rcases hin with (hbeyond | halnum') | hcolon
          · exact Or.inl hbeyond
          · rw [isWord, halnum', Bool.true_or, hword] at hne
            exact absurd rfl hne
          · exact Or.inr (Or.inr (Or.inl ⟨by simpa [codes] using hcolon, hword⟩))
    · have hcode : f.code = 58 := by simpa [codes] using hcolon
      exact Or.inr (Or.inr (Or.inr ⟨hcode, twoColons_relaxed _ _ _ h.second.2 f n rfl hcode⟩))
  · exact Or.inr (Or.inl (Nat.le_of_not_lt hlt))

/-! ### Offsets in the text -/

/-- Matches with their offsets in bytes. -/
def offsetsFrom : ℕ → List (List Rune × List Rune) → List (ℕ × Bytes)
  | _, [] => []
  | p, (g, m) :: ms =>
    (p + (encode g).length, encode m) ::
      offsetsFrom (p + (encode g).length + (encode m).length) ms

/-- The links of a text with their offsets. -/
def linkOffsets (u : Unicode) (gtld : Gtld) (text : Bytes) : List (ℕ × Bytes) :=
  offsetsFrom 0 (linkMatches u gtld text)

theorem map_snd_offsetsFrom (p : ℕ) (ms : List (List Rune × List Rune)) :
    (offsetsFrom p ms).map Prod.snd = ms.map fun x => encode x.2 := by
  induction ms generalizing p with
  | nil => rfl
  | cons x ms ih =>
    obtain ⟨g, m⟩ := x
    rw [offsetsFrom, List.map_cons, List.map_cons, ih]

theorem map_snd_linkOffsets (u : Unicode) (gtld : Gtld) (text : Bytes) :
    (linkOffsets u gtld text).map Prod.snd = findAllString u gtld text :=
  map_snd_offsetsFrom 0 _

/-- The matches stand in the text at their offsets, with what is skipped between them. -/
theorem matchesFrom_offsets {r : Pattern Rune} {t : List Rune} {ms : List (List Rune × List Rune)}
    (h : Finds isWord r b t ms) {gap : ℕ}
    (hgaps : ms.IsChain fun _ x => gap ≤ (encode x.1).length) {before : Bytes} {start : ℕ}
    (hstart : ∀ x ∈ ms.head?, start ≤ before.length + (encode x.1).length) :
    MatchesFrom gap (before ++ encode t) start (offsetsFrom before.length ms) := by
  induction h generalizing before start with
  | none _ => trivial
  | @cons b g m post ms hfirst _ ih =>
    have hbefore : before ++ encode (g ++ (m ++ post)) =
        before ++ encode g ++ encode m ++ encode post := by
      rw [encode_append, encode_append]
      simp only [List.append_assoc]
    have hlen : (before ++ encode g).length = before.length + (encode g).length :=
      List.length_append
    have hrest : MatchesFrom gap (before ++ encode g ++ encode m ++ encode post)
        (before.length + (encode g).length + (encode m).length + gap)
        (offsetsFrom (before ++ encode g ++ encode m).length ms) := by
      refine ih hgaps.of_cons fun x hx => ?_
      have hgap := (List.isChain_cons.mp hgaps).1 x hx
      simp only [List.length_append]
      omega
    refine ⟨hstart _ rfl, encode_ne_nil hfirst.isMatch.1, ?_, ?_⟩
    · rw [hbefore, List.append_assoc (before ++ encode g), ← hlen, List.drop_left]
      exact List.prefix_append _ _
    · rw [hbefore]
      simp only [List.length_append] at hrest
      exact hrest

/-- **The links are in the text, in order and apart from each other's characters.** -/
theorem matchesFrom_linkOffsets (u : Unicode) (gtld : Gtld) (text : Bytes) :
    MatchesFrom 0 text 0 (linkOffsets u gtld text) := by
  have h : MatchesFrom 0 ([] ++ encode (runes text)) 0 (linkOffsets u gtld text) :=
    matchesFrom_offsets (finds_findAll isWord (relaxed u gtld) (runes text))
      (List.isChain_iff_forall_rel_of_append_cons_cons.mpr fun _ _ _ _ _ => Nat.zero_le _)
      fun _ _ => Nat.zero_le _
  rw [encode, flatMap_runes] at h
  exact h

theorem isChain_offsets {R : Bytes → Bytes → Prop} {ms : List (List Rune × List Rune)}
    (h : ms.IsChain fun x y => y.1 = [] → R (encode x.2) (encode y.2)) (p : ℕ) :
    (offsetsFrom p ms).IsChain fun x y => x.1 + x.2.length = y.1 → R x.2 y.2 := by
  induction ms generalizing p with
  | nil => exact .nil
  | cons x ms ih =>
    obtain ⟨g, m⟩ := x
    have hrest := ih (List.isChain_cons.mp h).2 (p + (encode g).length + (encode m).length)
    cases ms with
    | nil => exact .singleton _
    | cons y ms =>
      obtain ⟨g', m'⟩ := y
      refine .cons_cons ?_ hrest
      intro hmeet
      have hlen : (encode g').length = 0 := by
        change p + (encode g).length + (encode m).length =
          p + (encode g).length + (encode m).length + (encode g').length at hmeet
        omega
      refine (List.isChain_cons.mp h).1 (g', m') rfl ?_
      by_contra hne
      exact encode_ne_nil hne (List.length_eq_zero_iff.mp hlen)

def isWordByte (b : UInt8) : Bool := isAlnum b.toNat || b == 95

/-- The byte of an ASCII character. -/
theorem bytes_of_ascii {c : Rune} (hc : c.code < 128) :
    c.bytes = [UInt8.ofNat c.code] ∧ (UInt8.ofNat c.code).toNat = c.code := by
  rcases c.form with ⟨_, hbytes⟩ | ⟨hle, _⟩
  · exact ⟨hbytes, by rw [UInt8.toNat_ofNat', Nat.mod_eq_of_lt (by omega)]⟩
  · omega

theorem isWord_of_ascii {c : Rune} (hc : c.code < 128) :
    isWord c = isWordByte (UInt8.ofNat c.code) := by
  rw [isWord, isWordByte, (bytes_of_ascii hc).2]
  congr 1
  rw [Bool.eq_iff_iff, beq_iff_eq, beq_iff_eq, ← UInt8.toNat_inj, (bytes_of_ascii hc).2]
  rfl

/-- How two links can meet: next to a byte beyond ASCII, between a colon and a letter, a digit or
an underscore, or before two colons. -/
def Meet (l l' : Bytes) : Prop :=
  (∃ e ∈ l.getLast?, 128 ≤ e.toNat) ∨ (∃ f ∈ l'.head?, 128 ≤ f.toNat) ∨
    (l.getLast? = some 58 ∧ ∃ f ∈ l'.head?, isWordByte f = true) ∨ ascii "::" <+: l'

theorem meet_of_touching (h : Touching isWord (relaxed u gtld) b m m' post) :
    Meet (encode m) (encode m') := by
  obtain ⟨e, f, n, he, rfl, hmeet⟩ := touching h
  obtain ⟨m, rfl⟩ := List.getLast?_eq_some_iff.mp he
  have hlast {x : UInt8} (hx : e.bytes.getLast? = some x) :
      (encode (m ++ [e])).getLast? = some x := by
    rw [encode_append, encode, encode, List.flatMap_singleton,
      List.getLast?_append_of_ne_nil _ e.bytes_ne_nil, hx]
  have hhead {x : UInt8} (hx : f.bytes.head? = some x) : (encode (f :: n)).head? = some x := by
    rw [encode, List.flatMap_cons, List.head?_append_of_ne_nil _ f.bytes_ne_nil, hx]
  rcases hmeet with hbeyond | hbeyond | ⟨hcolon, hword⟩ | ⟨hcolon, d, n', rfl, hd⟩
  · left
    have hx := List.getLast?_eq_some_getLast e.bytes_ne_nil
    refine ⟨_, hlast hx, ?_⟩
    rcases e.form with ⟨hlt, _⟩ | ⟨_, _, hbytes⟩
    · omega
    · exact hbytes _ (List.getLast_mem _)
  · right; left
    have hx := List.head?_eq_some_head f.bytes_ne_nil
    refine ⟨_, hhead hx, ?_⟩
    rcases f.form with ⟨hlt, _⟩ | ⟨_, _, hbytes⟩
    · omega
    · exact hbytes _ (List.head_mem _)
  · by_cases hf : f.code < 128
    · right; right; left
      refine ⟨hlast ?_, _, hhead ?_, (isWord_of_ascii hf).symm.trans hword⟩
      · rw [(bytes_of_ascii (c := e) (by omega)).1, hcolon]
        rfl
      · rw [(bytes_of_ascii hf).1]
        rfl
    · right; left
      have hx := List.head?_eq_some_head f.bytes_ne_nil
      refine ⟨_, hhead hx, ?_⟩
      rcases f.form with ⟨hlt, _⟩ | ⟨_, _, hbytes⟩
      · omega
      · exact hbytes _ (List.head_mem _)
  · right; right; right
    refine ⟨encode n', ?_⟩
    show _ = f.bytes ++ (d.bytes ++ encode n')
    rw [(bytes_of_ascii (c := f) (by omega)).1, (bytes_of_ascii (c := d) (by omega)).1, hcolon, hd]
    rfl

/-- Links with nothing between them meet. -/
theorem meet_of_adjacent (u : Unicode) (gtld : Gtld) (text : Bytes) :
    (linkMatches u gtld text).IsChain fun x y => y.1 = [] → Meet (encode x.2) (encode y.2) := by
  refine (finds_findAll isWord _ (runes text)).touching.imp fun x y hxy hy => ?_
  obtain ⟨_, _, _, htouch⟩ := hxy hy
  exact meet_of_touching htouch

/-- **Links that touch** meet in one of these ways, in every text. -/
theorem links_meet (u : Unicode) (gtld : Gtld) (text : Bytes) :
    (linkOffsets u gtld text).IsChain fun x y => x.1 + x.2.length = y.1 → Meet x.2 y.2 :=
  isChain_offsets (meet_of_adjacent u gtld text) 0

/-! ### Texts in which no links touch -/

/-- No colon has a colon, a letter, a digit or an underscore behind it. -/
def ColonsApart (text : Bytes) : Prop :=
  text.IsChain fun b c => b = 58 → isWordByte c = false ∧ c ≠ 58

instance : DecidablePred ColonsApart := fun _ => inferInstanceAs (Decidable (List.IsChain _ _))

/-- Nothing can meet in such a text, if it is ASCII. -/
theorem not_meet {text l l' : Bytes} {p : ℕ} (hascii : ∀ b ∈ text, b.toNat < 128)
    (hcolons : ColonsApart text) (hne : l ≠ []) (hl : l <+: text.drop p)
    (hl' : l' <+: text.drop (p + l.length)) : ¬Meet l l' := by
  obtain ⟨rest, hrest⟩ := hl
  rw [← List.drop_drop, ← hrest, List.drop_left] at hl'
  obtain ⟨rest', rfl⟩ := hl'
  have htext : text = text.take p ++ (l ++ (l' ++ rest')) := by rw [hrest, List.take_append_drop]
  have hchain := List.isChain_iff_forall_rel_of_append_cons_cons.mp hcolons
  rintro (⟨e, he, hbeyond⟩ | ⟨f, hf, hbeyond⟩ | ⟨he, f, hf, hword⟩ | ⟨n, rfl⟩)
  · have hmem : e ∈ text := by
      rw [htext]
      simp [List.mem_of_mem_getLast? he]
    exact absurd (hascii e hmem) (by omega)
  · have hmem : f ∈ text := by
      rw [htext]
      simp [List.mem_of_mem_head? hf]
    exact absurd (hascii f hmem) (by omega)
  · obtain ⟨l, rfl⟩ := List.getLast?_eq_some_iff.mp he
    obtain ⟨n, rfl⟩ := List.head?_eq_some_iff.mp hf
    have hsplit : text = (text.take p ++ l) ++ 58 :: f :: (n ++ rest') :=
      htext.trans (by simp)
    have hpair := hchain hsplit rfl
    rw [hword] at hpair
    exact absurd hpair.1 (by decide)
  · have hsplit : text = (text.take p ++ l) ++ 58 :: 58 :: (n ++ rest') :=
      htext.trans (by simp [ascii])
    have hpair := hchain hsplit rfl
    exact absurd rfl hpair.2

theorem matchesFrom_one {text : Bytes} (hno : ∀ (p : ℕ) (l l' : Bytes), l ≠ [] →
      l <+: text.drop p → l' <+: text.drop (p + l.length) → ¬Meet l l')
    {os : List (ℕ × Bytes)} {start start' : ℕ} (h : MatchesFrom 0 text start os)
    (hmeet : os.IsChain fun x y => x.1 + x.2.length = y.1 → Meet x.2 y.2)
    (hstart : ∀ x ∈ os.head?, start' ≤ x.1) : MatchesFrom 1 text start' os := by
  induction os generalizing start start' with
  | nil => trivial
  | cons x os ih =>
    obtain ⟨p, l⟩ := x
    obtain ⟨_, hne, hl, hrest⟩ := h
    obtain ⟨hfirst, hmeet⟩ := List.isChain_cons.mp hmeet
    refine ⟨hstart _ rfl, hne, hl, ih hrest hmeet fun y hy => ?_⟩
    cases os with
    | nil => exact absurd hy (by simp)
    | cons y' os =>
      obtain rfl := Option.some.inj hy
      obtain ⟨hle, _, hl', _⟩ := hrest
      rcases Nat.lt_or_eq_of_le hle with hlt | heq
      · exact hlt
      · rw [Nat.add_zero] at heq
        rw [← heq] at hl'
        exact absurd (hfirst y' rfl heq) (hno p l y'.2 hne hl hl')

/-- In such a text there is a byte between consecutive links. -/
theorem matchesFrom_plain (u : Unicode) (gtld : Gtld) {text : Bytes}
    (hascii : ∀ b ∈ text, b.toNat < 128) (hcolons : ColonsApart text) :
    MatchesFrom 1 text 0 (linkOffsets u gtld text) :=
  matchesFrom_one (fun _ _ _ => not_meet hascii hcolons) (matchesFrom_linkOffsets u gtld text)
    (isChain_offsets (meet_of_adjacent u gtld text) 0) fun _ _ => Nat.zero_le _

/-- The loop ends when there is a byte between consecutive matches. -/
theorem terminates_of_matches {findAllString : Bytes → List Bytes} {text : Bytes}
    {ms : List (ℕ × Bytes)} (hmatches : MatchesFrom 1 text 0 ms)
    (hlinks : findAllString text = ms.map Prod.snd) : Terminates findAllString text := by
  by_cases hms : ms = []
  · exact ⟨0, text, by rw [partialHtmlParser, hlinks, hms, List.map_nil]⟩
  · refine terminates_of_placed ?_ ?_ <;> rw [hlinks]
    · exact hmatches.ne_nil
    · exact hmatches.placed hms

theorem terminates_of_plain (u : Unicode) (gtld : Gtld) {text : Bytes}
    (hascii : ∀ b ∈ text, b.toNat < 128) (hcolons : ColonsApart text) :
    Terminates (findAllString u gtld) text :=
  terminates_of_matches (matchesFrom_plain u gtld hascii hcolons) (map_snd_linkOffsets u gtld text).symm

/-- What the anchors of a page are on, when there is a byte between consecutive matches. -/
theorem anchors_of_pieces {findAllString : Bytes → List Bytes} {fuel : ℕ} {text : Bytes}
    {ms : List (ℕ × Bytes)} {ps : List Piece} (hmatches : MatchesFrom 1 text 0 ms)
    (hlinks : findAllString text = ms.map Prod.snd)
    (hps : partialHtmlPieces findAllString fuel text = some ps) :
    anchorsFrom 0 ps = ms ↔ NoEarlier text 0 ms := by
  rcases scans_of_pieces hps with ⟨hnil, hcopy⟩ | ⟨_, r, hscan⟩
  · rw [hlinks, List.map_eq_nil_iff] at hnil
    rw [hnil, hcopy]
    exact iff_of_true (anchorsFrom_copy 0 text) trivial
  · rw [hlinks] at hscan
    exact anchors_iff hmatches hscan

/-- **The loop ends on such a text**, and its anchors are on the links unless the characters of one
occur before it. -/
theorem plainText_links (u : Unicode) (gtld : Gtld) {text : Bytes}
    (hascii : ∀ b ∈ text, b.toNat < 128) (hcolons : ColonsApart text) :
    Terminates (findAllString u gtld) text ∧ MatchesFrom 1 text 0 (linkOffsets u gtld text) ∧
      ∀ fuel out, partialHtmlParser (findAllString u gtld) fuel text = some out →
        ∃ ps, partialHtmlPieces (findAllString u gtld) fuel text = some ps ∧ html ps = out ∧
          eraseMarkup ps <+: text ∧ (anchorsFrom 0 ps = linkOffsets u gtld text ↔
            NoEarlier text 0 (linkOffsets u gtld text)) := by
  have hmatches := matchesFrom_plain u gtld hascii hcolons
  refine ⟨terminates_of_plain u gtld hascii hcolons, hmatches, fun fuel out hrun => ?_⟩
  obtain ⟨ps, hps, hout⟩ := partialHtmlParser_eq_some_iff.mp hrun
  exact ⟨ps, hps, hout, eraseMarkup_front hps,
    anchors_of_pieces hmatches (map_snd_linkOffsets u gtld text).symm hps⟩

theorem plainText_links_bit :
    Terminates (findAllString asciiUnicode pseudoTLDs) (ascii "see http://a.b, b.bit: or 1.1.1.1") :=
  (plainText_links asciiUnicode pseudoTLDs (by decide +kernel) (by decide +kernel)).1

/-- The pattern takes the colon with the first link, and the loop never finds the second. -/
theorem colon_loop :
    linkOffsets asciiUnicode pseudoTLDs (ascii "a.bit:b.bit") =
        [(0, ascii "a.bit:"), (6, ascii "b.bit")] ∧
      ¬Terminates (findAllString asciiUnicode pseudoTLDs) (ascii "a.bit:b.bit") := by
  have hlinks : findAllString asciiUnicode pseudoTLDs (ascii "a.bit:b.bit") =
      [ascii "a.bit:", ascii "b.bit"] := by decide +kernel
  refine ⟨by decide +kernel, ?_⟩
  intro ⟨fuel, out, hrun⟩
  obtain ⟨ps, hps, _⟩ := partialHtmlParser_eq_some_iff.mp hrun
  rcases scans_of_pieces hps with ⟨hnil, _⟩ | ⟨_, r, hscan⟩
  · rw [hlinks] at hnil
    exact absurd hnil (by decide)
  · rw [hlinks] at hscan
    have hplaced := placed_of_scans hscan (by decide) (by decide)
    have htext : ascii "a.bit:b.bit" = ascii "a.bit:" ++ 98 :: ascii ".bit" := by decide
    rw [htext, placed_append_iff (by decide)] at hplaced
    cases hplaced with
    | @last _ _ u v hs _ =>
      have hlen := congrArg List.length hs
      simp only [List.length_append] at hlen
      change 4 = u.length + (5 + v.length) at hlen
      omega
    | cons _ hws => exact not_placed_nil hws

end ShareNotes.LinkGaps
