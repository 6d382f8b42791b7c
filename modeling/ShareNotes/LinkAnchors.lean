import ShareNotes.LinkedText

/-!
# Where the anchors are and where they lead

The pattern's matches come with offsets, which the loop does not look at: it puts
each anchor at the first occurrence of the link's characters from the byte on
that follows the byte copied after the link before. So the anchors are on the
matches exactly when no link occurs earlier in the gap before its match.

The target of an anchor is the link itself as soon as one of the known schemes
occurs anywhere in it.
-/

namespace ShareNotes.LinkAnchors

open ShareNotes.Lib.Decimal ShareNotes.Lib.Placements ShareNotes.Linkify ShareNotes.LinkScan ShareNotes.LinkedText

/-! ### Offsets -/

/-- Matches in a text from `start` on, from left to right, not empty, and with at
least `gap` bytes between consecutive ones. -/
def MatchesFrom (gap : ℕ) (text : Bytes) : ℕ → List (ℕ × Bytes) → Prop
  | _, [] => True
  | start, (p, l) :: ms =>
    start ≤ p ∧ l ≠ [] ∧ l <+: text.drop p ∧ MatchesFrom gap text (p + l.length + gap) ms

/-- The anchors of pieces that start at an offset of the text, each with its own offset. -/
def anchorsFrom : ℕ → List Piece → List (ℕ × Bytes)
  | _, [] => []
  | p, .byte _ :: ps => anchorsFrom (p + 1) ps
  | p, .anchor l :: ps => (p, l) :: anchorsFrom (p + l.length) ps

/-- No link occurs between the byte after the byte behind the match before and its own match. -/
def NoEarlier (text : Bytes) : ℕ → List (ℕ × Bytes) → Prop
  | _, [] => True
  | start, (p, l) :: ms =>
    (∀ q, start ≤ q → q < p → ¬l <+: text.drop q) ∧ NoEarlier text (p + l.length + 1) ms

/-- An occurrence of a word that no earlier one precedes. -/
structure FirstAt (text : Bytes) (start : ℕ) (l : Bytes) (p : ℕ) : Prop where
  le : start ≤ p
  occurs : l <+: text.drop p
  none_before : ∀ q, start ≤ q → q < p → ¬l <+: text.drop q

theorem FirstAt.eq {text l : Bytes} {start p q : ℕ} (hp : FirstAt text start l p)
    (hq : FirstAt text start l q) : p = q := by
  rcases Nat.lt_trichotomy p q with hlt | heq | hgt
  · exact absurd hp.occurs (hq.none_before p hp.le hlt)
  · exact heq
  · exact absurd hq.occurs (hp.none_before q hq.le hgt)

theorem anchorsFrom_copy (p : ℕ) (s : Bytes) : anchorsFrom p (s.map .byte) = [] := by
  induction s generalizing p with
  | nil => rfl
  | cons b s ih => exact ih (p + 1)

theorem drop_succ {text s : Bytes} {b : UInt8} {p : ℕ} (h : text.drop p = b :: s) :
    text.drop (p + 1) = s := by
  rw [← List.drop_drop, h, List.drop_succ_cons, List.drop_zero]

/-- **Where the first link is wrapped**, and how the run goes on behind it. -/
theorem first_of_scans {text l s r : Bytes} {ls : List Bytes} {ps : List Piece}
    (h : Scans (l :: ls) s ps r) (hls : ∀ l' ∈ ls, l' ≠ []) {start : ℕ}
    (hs : text.drop start = s) :
    ∃ p ps', FirstAt text start l p ∧ Scans ls (text.drop (p + l.length + 1)) ps' r ∧
      anchorsFrom start ps = (p, l) :: anchorsFrom (p + l.length + 1) ps' := by
  generalize hlinks : l :: ls = links at h
  induction h generalizing start with
  | done s => exact absurd hlinks (by simp)
  | @copy l' ls' b s r ps hno hrest ih =>
    obtain ⟨rfl, rfl⟩ := List.cons.inj hlinks
    obtain ⟨p, ps', hfirst, hscan, hanchors⟩ := ih (drop_succ hs) rfl
    refine ⟨p, ps', ⟨?_, hfirst.occurs, ?_⟩, hscan, hanchors⟩
    · have := hfirst.le
      omega
    · intro q hq hlt
      by_cases heq : q = start
      · rw [heq, hs]
        exact hno
      · exact hfirst.none_before q (by omega) hlt
  | @wrap l' ls' c s r ps hrest ih =>
    obtain ⟨rfl, rfl⟩ := List.cons.inj hlinks
    refine ⟨start, ps, ⟨le_rfl, ⟨_, hs.symm⟩, fun q hq hlt => absurd hlt (by omega)⟩, ?_, rfl⟩
    rw [Nat.add_assoc, ← List.drop_drop, hs, ← List.drop_drop, List.drop_left,
      List.drop_succ_cons, List.drop_zero]
    exact hrest
  | @wrapEnd l' ls' r ps hrest ih =>
    obtain ⟨rfl, rfl⟩ := List.cons.inj hlinks
    obtain ⟨rfl, rfl⟩ := hrest.of_nil hls
    have hend : text.drop (start + l.length + 1) = [] := by
      rw [Nat.add_assoc, ← List.drop_drop, hs, List.drop_eq_nil_iff]
      omega
    refine ⟨start, [], ⟨le_rfl, ?_, fun q hq hlt => absurd hlt (by omega)⟩, ?_, rfl⟩
    · rw [hs]
    · rw [hend]
      exact hrest

theorem MatchesFrom.ne_nil {gap start : ℕ} {text : Bytes} {ms : List (ℕ × Bytes)}
    (h : MatchesFrom gap text start ms) : ∀ l ∈ ms.map Prod.snd, l ≠ [] := by
  induction ms generalizing start with
  | nil => simp
  | cons m ms ih =>
    obtain ⟨p, l⟩ := m
    rw [List.map_cons, List.forall_mem_cons]
    exact ⟨h.2.1, ih h.2.2.2⟩

/-- **The anchors are where the links occur first**, one after another. -/
theorem anchors_iff {text r : Bytes} {ms : List (ℕ × Bytes)} {ps : List Piece} {start : ℕ}
    (hmatches : MatchesFrom 1 text start ms)
    (h : Scans (ms.map Prod.snd) (text.drop start) ps r) :
    anchorsFrom start ps = ms ↔ NoEarlier text start ms := by
  induction ms generalizing start ps with
  | nil =>
    cases h
    exact iff_of_true rfl trivial
  | cons m ms ih =>
    obtain ⟨p, l⟩ := m
    have hne := hmatches.2.2.2.ne_nil
    obtain ⟨q, ps', hfirst, hscan, hanchors⟩ := first_of_scans h hne rfl
    rw [hanchors, List.cons.injEq, Prod.mk.injEq, NoEarlier]
    constructor
    · rintro ⟨⟨rfl, -⟩, hrest⟩
      exact ⟨hfirst.none_before, (ih hmatches.2.2.2 hscan).mp hrest⟩
    · intro ⟨hnone, hrest⟩
      obtain rfl : q = p := hfirst.eq ⟨hmatches.1, hmatches.2.2.1, hnone⟩
      exact ⟨⟨rfl, rfl⟩, (ih hmatches.2.2.2 hscan).mpr hrest⟩

/-- Matches with a byte between them can be placed. -/
theorem MatchesFrom.placed {text : Bytes} {ms : List (ℕ × Bytes)} {start : ℕ}
    (h : MatchesFrom 1 text start ms) (hms : ms ≠ []) :
    Placed 0 (ms.map Prod.snd) (text.drop start) := by
  induction ms generalizing start with
  | nil => exact absurd rfl hms
  | cons m ms ih =>
    obtain ⟨p, l⟩ := m
    obtain ⟨hle, _, ⟨v, hv⟩, hrest⟩ := h
    obtain ⟨d, rfl⟩ : ∃ d, p = start + d := ⟨p - start, by omega⟩
    rw [← List.take_append_drop d (text.drop start), List.drop_drop, ← hv]
    cases ms with
    | nil => exact .last rfl (Nat.zero_le _)
    | cons m' ms =>
      have hplaced := ih hrest (by simp)
      have hdrop : text.drop (start + d + l.length) = v := by
        rw [← List.drop_drop, ← hv, List.drop_left]
      cases v with
      | nil =>
        -- the next link would have to occur in the empty rest
        rw [List.map_cons, ← List.drop_drop, hdrop, List.drop_nil] at hplaced
        exact absurd hplaced (not_placed_empty hrest.2.1)
      | cons c v =>
        rw [drop_succ hdrop] at hplaced
        exact .cons rfl hplaced

/-- **Anchors on the matches.** When there is a byte between consecutive matches
the loop ends, and the anchors are exactly the matches if and only if no link
occurs earlier than its match. -/
theorem anchors_on_matches {findAllString : Bytes → List Bytes} {text : Bytes}
    {ms : List (ℕ × Bytes)} (hmatches : MatchesFrom 1 text 0 ms)
    (hlinks : findAllString text = ms.map Prod.snd) :
    Terminates findAllString text ∧
      ∀ fuel out, partialHtmlParser findAllString fuel text = some out →
        ∃ ps, partialHtmlPieces findAllString fuel text = some ps ∧ html ps = out ∧
          eraseMarkup ps <+: text ∧ (anchorsFrom 0 ps = ms ↔ NoEarlier text 0 ms) := by
  have hne := hmatches.ne_nil
  rw [← hlinks] at hne
  constructor
  · by_cases hms : ms = []
    · exact ⟨0, text, by rw [partialHtmlParser, hlinks, hms, List.map_nil]⟩
    · have hplaced := hmatches.placed hms
      rw [← hlinks] at hplaced
      exact terminates_of_placed hne hplaced
  · intro fuel out hrun
    obtain ⟨ps, hps, hout⟩ := partialHtmlParser_eq_some_iff.mp hrun
    refine ⟨ps, hps, hout, eraseMarkup_front hps, ?_⟩
    rcases scans_of_pieces hps with ⟨hnil, hcopy⟩ | ⟨_, r, hscan⟩
    · rw [hlinks, List.map_eq_nil_iff] at hnil
      rw [hnil, hcopy]
      exact iff_of_true (anchorsFrom_copy 0 text) trivial
    · rw [hlinks] at hscan
      exact anchors_iff hmatches hscan

/-- Finds the same address twice. -/
def addressTwice (_ : Bytes) : List Bytes := [ascii "1.1.1.1", ascii "1.1.1.1"]

/-- An address that stands twice in a text, with five bytes in between. -/
theorem anchors_on_matches_twice :
    Terminates addressTwice (ascii "at 1.1.1.1 and 1.1.1.1 too") ∧
      ∃ ps, partialHtmlPieces addressTwice 30 (ascii "at 1.1.1.1 and 1.1.1.1 too") =
          some ps ∧
        html ps = ascii "at <a href=http://1.1.1.1 target=_new>1.1.1.1</a> and " ++
          ascii "<a href=http://1.1.1.1 target=_new>1.1.1.1</a> " ∧
        eraseMarkup ps <+: ascii "at 1.1.1.1 and 1.1.1.1 too" ∧
        NoEarlier (ascii "at 1.1.1.1 and 1.1.1.1 too") 0
          [(3, ascii "1.1.1.1"), (15, ascii "1.1.1.1")] ∧
        anchorsFrom 0 ps = [(3, ascii "1.1.1.1"), (15, ascii "1.1.1.1")] := by
  have hmatches : MatchesFrom 1 (ascii "at 1.1.1.1 and 1.1.1.1 too") 0
      [(3, ascii "1.1.1.1"), (15, ascii "1.1.1.1")] :=
    ⟨by decide, by decide, by decide, by decide, by decide, by decide, trivial⟩
  have hnone : NoEarlier (ascii "at 1.1.1.1 and 1.1.1.1 too") 0
      [(3, ascii "1.1.1.1"), (15, ascii "1.1.1.1")] := by
    refine ⟨fun q _ hq => ?_, fun q hle hq => ?_, trivial⟩
    · have hbefore : ∀ q < 3, ¬ascii "1.1.1.1" <+: (ascii "at 1.1.1.1 and 1.1.1.1 too").drop q := by
        decide
      exact hbefore q hq
    · have hgap : ∀ q < 15, 11 ≤ q →
          ¬ascii "1.1.1.1" <+: (ascii "at 1.1.1.1 and 1.1.1.1 too").drop q := by
        decide
      exact hgap q hq hle
  have hrun : partialHtmlParser addressTwice 30 (ascii "at 1.1.1.1 and 1.1.1.1 too") =
      some (ascii "at <a href=http://1.1.1.1 target=_new>1.1.1.1</a> and " ++
        ascii "<a href=http://1.1.1.1 target=_new>1.1.1.1</a> ") := by
    decide
  have hlinks : addressTwice (ascii "at 1.1.1.1 and 1.1.1.1 too") =
      [(3, ascii "1.1.1.1"), (15, ascii "1.1.1.1")].map Prod.snd := rfl
  obtain ⟨hterminates, hanchors⟩ := anchors_on_matches hmatches hlinks
  obtain ⟨ps, hps, hhtml, hfront, hiff⟩ := hanchors 30 _ hrun
  exact ⟨hterminates, ps, hps, hhtml, hfront, hnone, hiff.mpr hnone⟩

/-- The address inside of a word is no match, but it is the one that gets the anchor. -/
theorem anchor_inWord :
    MatchesFrom 1 (ascii "x1.1.1.1 1.1.1.1") 0 [(9, ascii "1.1.1.1")] ∧
      ∃ ps, partialHtmlPieces (fun _ => [ascii "1.1.1.1"]) 20 (ascii "x1.1.1.1 1.1.1.1") =
          some ps ∧
        partialHtmlParser (fun _ => [ascii "1.1.1.1"]) 20 (ascii "x1.1.1.1 1.1.1.1") =
          some (html ps) ∧
        anchorsFrom 0 ps = [(1, ascii "1.1.1.1")] := by
  refine ⟨⟨by decide, by decide, by decide, trivial⟩,
    [.byte 120, .anchor (ascii "1.1.1.1"), .byte 32], ?_⟩
  decide

/-! ### Targets -/

/-- One of the schemes of the source's list stands at the front. -/
def HasListedScheme (href : Bytes) : Prop := ∃ scheme ∈ linkSchemes, scheme <+: href

/-- A link gets a target with a listed scheme, unless a listed scheme occurs in it
and none stands at its front. -/
theorem target_iff (link : Bytes) :
    HasListedScheme (target link) ↔
      ((∃ scheme ∈ linkSchemes, contains link scheme = true) → HasListedScheme link) := by
  rw [target]
  split
  · rename_i hany
    rw [List.any_eq_true] at hany
    exact ⟨fun h _ => h, fun h => h hany⟩
  · rename_i hnone
    rw [List.any_eq_true] at hnone
    refine iff_of_true ?_ fun h => absurd h hnone
    exact ⟨ascii "http://", by decide, List.prefix_append _ _⟩

theorem mem_wrappedLinks {ps : List Piece} {link : Bytes} :
    .anchor link ∈ ps ↔ link ∈ wrappedLinks ps := by
  rw [wrappedLinks, List.mem_filterMap]
  constructor
  · intro h
    exact ⟨_, h, rfl⟩
  · rintro ⟨p, hp, hlink⟩
    cases p with
    | byte b => exact absurd hlink (by simp)
    | anchor l =>
      rw [Option.some.injEq] at hlink
      rw [← hlink]
      exact hp

/-- The anchors that are written are those of the links found. -/
theorem anchors_of_pieces {findAllString : Bytes → List Bytes} {fuel : ℕ} {text : Bytes}
    {ps : List Piece} (hps : partialHtmlPieces findAllString fuel text = some ps)
    (link : Bytes) : .anchor link ∈ ps ↔ link ∈ findAllString text := by
  rw [mem_wrappedLinks, wrappedLinks_of_pieces hps]

/-- **Every anchor has a target with a listed scheme exactly when every link that
names a listed scheme anywhere starts with one.** -/
theorem targets_listed_iff {findAllString : Bytes → List Bytes} {fuel : ℕ} {text out : Bytes}
    (hrun : partialHtmlParser findAllString fuel text = some out) :
    ∃ ps, partialHtmlPieces findAllString fuel text = some ps ∧ html ps = out ∧
      ((∀ link, .anchor link ∈ ps → HasListedScheme (target link)) ↔
        ∀ link ∈ findAllString text, (∃ scheme ∈ linkSchemes, contains link scheme = true) →
          HasListedScheme link) := by
  obtain ⟨ps, hps, hout⟩ := partialHtmlParser_eq_some_iff.mp hrun
  refine ⟨ps, hps, hout, forall_congr' fun link => ?_⟩
  rw [anchors_of_pieces hps, target_iff]

theorem targets_listed_iff_oneLink :
    ∃ ps, partialHtmlPieces oneLink 20 (ascii "see http://a.b!") = some ps ∧
      html ps = ascii "see <a href=http://a.b target=_new>http://a.b</a>!" ∧
      ((∀ link, .anchor link ∈ ps → HasListedScheme (target link)) ↔
        ∀ link ∈ oneLink (ascii "see http://a.b!"),
          (∃ scheme ∈ linkSchemes, contains link scheme = true) → HasListedScheme link) := by
  have hrun : partialHtmlParser oneLink 20 (ascii "see http://a.b!") =
      some (ascii "see <a href=http://a.b target=_new>http://a.b</a>!") := by decide
  exact targets_listed_iff hrun

/-- A link of another scheme whose query names a listed one becomes the target as it is. -/
theorem javascript_target :
    ∃ ps, partialHtmlPieces (fun text => [text]) 1 (ascii "javascript://x?http://y") = some ps ∧
      partialHtmlParser (fun text => [text]) 1 (ascii "javascript://x?http://y") =
        some (html ps) ∧
      .anchor (ascii "javascript://x?http://y") ∈ ps ∧
      ¬HasListedScheme (target (ascii "javascript://x?http://y")) := by
  refine ⟨[.anchor (ascii "javascript://x?http://y")], ?_⟩
  rw [HasListedScheme]
  decide

end ShareNotes.LinkAnchors
