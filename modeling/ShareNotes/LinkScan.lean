import ShareNotes.Linkify

/-!
# What the link loop writes

The loop of `partialHtmlParser` is run again with its output kept in pieces: a
byte of the text that was copied, or the anchor of a link. Writing out the pieces
gives the HTML of the source's loop. `Scans` describes a whole run of the loop
step by step, without its fuel, and a run ends exactly when there is a derivation.
-/

namespace ShareNotes.LinkScan

open ShareNotes.Lib.Decimal ShareNotes.Linkify

/-- What one step of the loop adds to the HTML. -/
inductive Piece
  | byte (b : UInt8)
  | anchor (link : Bytes)
  deriving DecidableEq

/-- The target that the anchor of a link is given. -/
def target (link : Bytes) : Bytes :=
  if linkSchemes.any fun scheme => contains link scheme then link else ascii "http://" ++ link

def openTag (link : Bytes) : Bytes := ascii "<a href=" ++ target link ++ ascii " target=_new>"

def closeTag : Bytes := ascii "</a>"

/-- Where a byte of the HTML comes from. -/
inductive Origin
  | text
  | markup
  deriving DecidableEq

/-- The HTML of a piece, with the tags of an anchor marked as markup. -/
def Piece.marked : Piece → List (UInt8 × Origin)
  | .byte b => [(b, .text)]
  | .anchor link =>
    (openTag link).map (·, .markup) ++ link.map (·, .text) ++ closeTag.map (·, .markup)

/-- The HTML of pieces. -/
def html (ps : List Piece) : Bytes := (ps.flatMap Piece.marked).map Prod.fst

/-- The HTML of pieces without the markup that was inserted. -/
def eraseMarkup (ps : List Piece) : Bytes :=
  ((ps.flatMap Piece.marked).filter fun p => p.2 = .text).map Prod.fst

/-- The part of the text that a piece stands for. -/
def Piece.source : Piece → Bytes
  | .byte b => [b]
  | .anchor link => link

theorem anchor_eq (link : Bytes) : anchor link = openTag link ++ link ++ closeTag := by
  rw [anchor, openTag, target, closeTag]
  split
  · simp only [List.append_assoc]
  · have hhref : ascii "<a href=http://" = ascii "<a href=" ++ ascii "http://" := by decide
    rw [hhref]
    simp only [List.append_assoc]

theorem html_append (ps qs : List Piece) : html (ps ++ qs) = html ps ++ html qs := by
  rw [html, List.flatMap_append, List.map_append]
  rfl

theorem html_byte (b : UInt8) : html [.byte b] = [b] := rfl

theorem html_anchor (link : Bytes) : html [.anchor link] = anchor link := by
  rw [anchor_eq, html, List.flatMap_singleton, Piece.marked, List.map_append, List.map_append]
  simp only [List.map_map, Function.comp_def, List.map_id']

/-- Without its markup a piece is the part of the text that it stands for. -/
theorem eraseMarkup_eq (ps : List Piece) : eraseMarkup ps = ps.flatMap Piece.source := by
  induction ps with
  | nil => rfl
  | cons p ps ih =>
    rw [eraseMarkup] at ih
    rw [eraseMarkup, List.flatMap_cons, List.filter_append, List.map_append, ih,
      List.flatMap_cons]
    congr 1
    cases p with
    | byte b => rfl
    | anchor link =>
      simp [Piece.marked, Piece.source, List.filter_map, Function.comp_def]

/-- A text that is copied byte by byte stands for itself. -/
theorem flatMap_source_byte (s : Bytes) : (s.map .byte).flatMap Piece.source = s := by
  rw [List.flatMap_map]
  exact List.flatMap_singleton' s

/-! ### The loop in pieces -/

/-- The variables of the loop, with the HTML in pieces. -/
structure MarkedLoop where
  links : List Bytes
  currentLink : Bytes
  pieces : List Piece
  restText : Bytes

def MarkedLoop.wrap (st : MarkedLoop) : MarkedLoop :=
  if st.currentLink.isPrefixOf st.restText then
    let st := { st with
      pieces := st.pieces ++ [Piece.anchor st.currentLink],
      restText := st.restText.drop st.currentLink.length }
    match st.links with
    | _ :: link :: links => { st with links := link :: links, currentLink := link }
    | [link] => { st with currentLink := link, links := [] }
    | [] => st
  else st

def MarkedLoop.copy (st : MarkedLoop) : MarkedLoop :=
  match st.restText with
  | [] => st
  | b :: rest => { st with pieces := st.pieces ++ [.byte b], restText := rest }

def markedLoop : ℕ → MarkedLoop → Option MarkedLoop
  | 0, st => if st.links = [] then some st else none
  | fuel + 1, st => if st.links = [] then some st else markedLoop fuel st.wrap.copy

/-- The pieces of the HTML of a text; a text without links is copied as a whole. -/
def partialHtmlPieces (findAllString : Bytes → List Bytes) (fuel : ℕ) (text : Bytes) :
    Option (List Piece) :=
  match findAllString text with
  | [] => some (text.map .byte)
  | link :: links =>
    (markedLoop fuel ⟨link :: links, link, [], text⟩).map fun st => st.pieces

/-- The variables of the source's loop. -/
def MarkedLoop.state (st : MarkedLoop) : LinkLoop :=
  ⟨st.links, st.currentLink, html st.pieces, st.restText⟩

theorem wrap_state (st : MarkedLoop) : st.wrap.state = st.state.wrap := by
  obtain ⟨links, currentLink, pieces, restText⟩ := st
  show _ = LinkLoop.wrap ⟨links, currentLink, html pieces, restText⟩
  by_cases hstarts : currentLink.isPrefixOf restText = true
  · rcases links with _ | ⟨link, _ | ⟨link', links⟩⟩ <;>
      simp only [MarkedLoop.wrap, LinkLoop.wrap, MarkedLoop.state, if_pos hstarts, html_append,
        html_anchor]
  · simp only [MarkedLoop.wrap, LinkLoop.wrap, MarkedLoop.state, if_neg hstarts]

theorem copy_state (st : MarkedLoop) : st.copy.state = st.state.copy := by
  obtain ⟨links, currentLink, pieces, restText⟩ := st
  cases restText with
  | nil => rfl
  | cons b rest => simp only [MarkedLoop.copy, MarkedLoop.state, LinkLoop.copy, html_append,
      html_byte]

theorem markedLoop_state (fuel : ℕ) (st : MarkedLoop) :
    linkLoop fuel st.state = (markedLoop fuel st).map MarkedLoop.state := by
  induction fuel generalizing st with
  | zero =>
    rw [linkLoop, markedLoop]
    show (if st.links = [] then _ else _) = _
    split <;> rfl
  | succ fuel ih =>
    rw [linkLoop, markedLoop]
    show (if st.links = [] then _ else _) = _
    split
    · rfl
    · rw [← wrap_state, ← copy_state, ih]

/-- **The pieces write the HTML of the source.** -/
theorem partialHtmlParser_eq (findAllString : Bytes → List Bytes) (fuel : ℕ) (text : Bytes) :
    partialHtmlParser findAllString fuel text =
      (partialHtmlPieces findAllString fuel text).map html := by
  rw [partialHtmlParser, partialHtmlPieces]
  cases findAllString text with
  | nil =>
    have hcopy : html (text.map .byte) = text := by
      induction text with
      | nil => rfl
      | cons b text ih =>
        rw [← List.singleton_append, List.map_append, html_append, ih]
        rfl
    rw [Option.map_some, hcopy]
  | cons link links =>
    have hloop := markedLoop_state fuel ⟨link :: links, link, [], text⟩
    have hstate : MarkedLoop.state ⟨link :: links, link, [], text⟩ =
        ⟨link :: links, link, [], text⟩ := rfl
    rw [hstate] at hloop
    dsimp only
    rw [hloop, Option.map_map, Option.map_map]
    rfl

/-- The HTML that is returned is that of pieces. -/
theorem partialHtmlParser_eq_some_iff {findAllString : Bytes → List Bytes} {fuel : ℕ}
    {text out : Bytes} : partialHtmlParser findAllString fuel text = some out ↔
      ∃ ps, partialHtmlPieces findAllString fuel text = some ps ∧ html ps = out := by
  rw [partialHtmlParser_eq, Option.map_eq_some_iff]

/-! ### Whole runs -/

/-- The loop, with `links` to find in `s`, writes the pieces `ps` and leaves `r` of the text. -/
inductive Scans : List Bytes → Bytes → List Piece → Bytes → Prop
  | done (s : Bytes) : Scans [] s [] s
  | copy {l : Bytes} {ls : List Bytes} {b : UInt8} {s r : Bytes} {ps : List Piece}
      (hno : ¬l <+: b :: s) (hrest : Scans (l :: ls) s ps r) :
      Scans (l :: ls) (b :: s) (.byte b :: ps) r
  | wrap {l : Bytes} {ls : List Bytes} {c : UInt8} {s r : Bytes} {ps : List Piece}
      (hrest : Scans ls s ps r) : Scans (l :: ls) (l ++ c :: s) (.anchor l :: .byte c :: ps) r
  | wrapEnd {l : Bytes} {ls : List Bytes} {r : Bytes} {ps : List Piece}
      (hrest : Scans ls [] ps r) : Scans (l :: ls) l (.anchor l :: ps) r

theorem headD_of_mem_head {ls : List Bytes} {l : Bytes} (hl : l ∈ ls.head?) (d : Bytes) :
    ls.headD d = l := by
  rw [List.headD_eq_head?_getD, Option.mem_def.mp hl, Option.getD_some]

theorem eq_of_mem_head {l : Bytes} {ls : List Bytes} : ∀ l' ∈ (l :: ls).head?, l = l' :=
  fun _ hl => Option.some.inj hl

theorem headD_eq (ls : List Bytes) (d : Bytes) : ∀ l ∈ ls.head?, ls.headD d = l :=
  fun _ hl => headD_of_mem_head hl d

/-- The link that is looked for when the first one has been found. -/
theorem wrap_found {l : Bytes} {ls : List Bytes} {ps : List Piece} {s : Bytes} :
    MarkedLoop.wrap ⟨l :: ls, l, ps, l ++ s⟩ = ⟨ls, ls.headD l, ps ++ [.anchor l], s⟩ := by
  have hstarts : l.isPrefixOf (l ++ s) = true :=
    List.isPrefixOf_iff_prefix.mpr (List.prefix_append l s)
  cases ls with
  | nil => simp only [MarkedLoop.wrap, if_pos hstarts, List.drop_left, List.headD_nil]
  | cons l' ls => simp only [MarkedLoop.wrap, if_pos hstarts, List.drop_left, List.headD_cons]

theorem wrap_missed {l : Bytes} {ls : List Bytes} {ps : List Piece} {s : Bytes}
    (hno : ¬l <+: s) : MarkedLoop.wrap ⟨l :: ls, l, ps, s⟩ = ⟨l :: ls, l, ps, s⟩ := by
  have hstarts : ¬l.isPrefixOf s = true := fun h => hno (List.isPrefixOf_iff_prefix.mp h)
  simp only [MarkedLoop.wrap, if_neg hstarts]

/-- **A run that ends is a derivation.** -/
theorem scans_of_markedLoop {fuel : ℕ} {ls : List Bytes} {cur : Bytes} {ps : List Piece}
    {s : Bytes} {st : MarkedLoop} (hcur : ∀ l ∈ ls.head?, cur = l)
    (hrun : markedLoop fuel ⟨ls, cur, ps, s⟩ = some st) :
    ∃ qs, Scans ls s qs st.restText ∧ st.pieces = ps ++ qs := by
  induction fuel generalizing ls cur ps s with
  | zero =>
    rw [markedLoop] at hrun
    split at hrun
    · rename_i hnil
      change ls = [] at hnil
      rw [hnil, ← Option.some.inj hrun]
      exact ⟨[], .done s, (List.append_nil ps).symm⟩
    · exact absurd hrun (by simp)
  | succ fuel ih =>
    rw [markedLoop] at hrun
    cases ls with
    | nil =>
      rw [if_pos rfl, Option.some.injEq] at hrun
      rw [← hrun]
      exact ⟨[], .done s, (List.append_nil ps).symm⟩
    | cons l ls =>
      obtain rfl := hcur l rfl
      rw [if_neg (by simp)] at hrun
      by_cases hstarts : cur <+: s
      · -- the link is found, and a byte behind it is copied
        obtain ⟨v, rfl⟩ := hstarts
        rw [wrap_found] at hrun
        cases v with
        | nil =>
          obtain ⟨qs, hscan, hps⟩ := ih (headD_eq ls cur) hrun
          rw [List.append_nil]
          exact ⟨.anchor cur :: qs, .wrapEnd hscan, by rw [hps]; simp⟩
        | cons c v =>
          obtain ⟨qs, hscan, hps⟩ := ih (headD_eq ls cur) hrun
          exact ⟨.anchor cur :: .byte c :: qs, .wrap hscan, by rw [hps]; simp⟩
      · rw [wrap_missed hstarts] at hrun
        cases s with
        | nil =>
          -- the loop goes on without finding anything
          obtain ⟨qs, hscan, hps⟩ := ih eq_of_mem_head hrun
          exact ⟨qs, hscan, hps⟩
        | cons b s =>
          obtain ⟨qs, hscan, hps⟩ := ih eq_of_mem_head hrun
          exact ⟨.byte b :: qs, .copy hstarts hscan, by rw [hps]; simp⟩

/-- **A derivation is a run that ends**, after at most one step for each piece. -/
theorem Scans.markedLoop {ls : List Bytes} {s r : Bytes} {qs : List Piece}
    (h : Scans ls s qs r) {cur : Bytes} (hcur : ∀ l ∈ ls.head?, cur = l) (ps : List Piece)
    {fuel : ℕ} (hfuel : qs.length ≤ fuel) :
    ∃ cur', markedLoop fuel ⟨ls, cur, ps, s⟩ = some ⟨[], cur', ps ++ qs, r⟩ := by
  induction h generalizing cur ps fuel with
  | done s =>
    refine ⟨cur, ?_⟩
    rw [List.append_nil]
    cases fuel <;> rw [LinkScan.markedLoop, if_pos rfl]
  | @copy l ls b s r qs hno hrest ih =>
    obtain rfl := hcur l rfl
    obtain ⟨fuel, rfl⟩ : ∃ n, fuel = n + 1 :=
      ⟨fuel - 1, by rw [List.length_cons] at hfuel; omega⟩
    have hlen : qs.length ≤ fuel := by
      rw [List.length_cons] at hfuel
      omega
    obtain ⟨cur', hrun⟩ := ih eq_of_mem_head (ps ++ [.byte b]) hlen
    refine ⟨cur', ?_⟩
    rw [LinkScan.markedLoop, if_neg (by simp), wrap_missed hno]
    rw [List.append_assoc] at hrun
    exact hrun
  | @wrap l ls c s r qs hrest ih =>
    obtain rfl := hcur l rfl
    obtain ⟨fuel, rfl⟩ : ∃ n, fuel = n + 1 :=
      ⟨fuel - 1, by simp only [List.length_cons] at hfuel; omega⟩
    have hlen : qs.length ≤ fuel := by
      simp only [List.length_cons] at hfuel
      omega
    obtain ⟨cur', hrun⟩ := ih (headD_eq ls cur) (ps ++ [.anchor cur, .byte c]) hlen
    refine ⟨cur', ?_⟩
    rw [LinkScan.markedLoop, if_neg (by simp), wrap_found]
    rw [List.append_assoc] at hrun
    simp only [MarkedLoop.copy, List.append_assoc]
    exact hrun
  | @wrapEnd l ls r qs hrest ih =>
    obtain rfl := hcur l rfl
    obtain ⟨fuel, rfl⟩ : ∃ n, fuel = n + 1 :=
      ⟨fuel - 1, by rw [List.length_cons] at hfuel; omega⟩
    have hlen : qs.length ≤ fuel := by
      rw [List.length_cons] at hfuel
      omega
    obtain ⟨cur', hrun⟩ := ih (headD_eq ls cur) (ps ++ [.anchor cur]) hlen
    refine ⟨cur', ?_⟩
    have hfound : MarkedLoop.wrap ⟨cur :: ls, cur, ps, cur ++ []⟩ =
        ⟨ls, ls.headD cur, ps ++ [.anchor cur], []⟩ := wrap_found
    rw [List.append_nil] at hfound
    rw [LinkScan.markedLoop, if_neg (by simp), hfound]
    rw [List.append_assoc] at hrun
    exact hrun

/-! ### What a run keeps -/

/-- The pieces and what is left make up the text. -/
theorem Scans.source {ls : List Bytes} {s r : Bytes} {ps : List Piece} (h : Scans ls s ps r) :
    ps.flatMap Piece.source ++ r = s := by
  induction h with
  | done s => rfl
  | copy hno hrest ih => rw [List.flatMap_cons, List.append_assoc, ih, Piece.source,
      List.singleton_append]
  | wrap hrest ih => rw [List.flatMap_cons, List.flatMap_cons, List.append_assoc,
      List.append_assoc, ih, Piece.source, Piece.source, List.singleton_append]
  | wrapEnd hrest ih => rw [List.flatMap_cons, List.append_assoc, ih, Piece.source,
      List.append_nil]

/-- The links that were wrapped, in order. -/
def wrappedLinks (ps : List Piece) : List Bytes :=
  ps.filterMap fun p =>
    match p with
    | .byte _ => none
    | .anchor link => some link

/-- Each link is wrapped, in its turn. -/
theorem Scans.wrappedLinks {ls : List Bytes} {s r : Bytes} {ps : List Piece}
    (h : Scans ls s ps r) : wrappedLinks ps = ls := by
  induction h with
  | done s => rfl
  | copy hno hrest ih => exact ih
  | wrap hrest ih => exact congrArg (_ :: ·) ih
  | wrapEnd hrest ih => exact congrArg (_ :: ·) ih

/-- Nothing is found in the empty text. -/
theorem Scans.of_nil {ls : List Bytes} {r : Bytes} {ps : List Piece} (h : Scans ls [] ps r)
    (hls : ∀ l ∈ ls, l ≠ []) : ls = [] ∧ ps = [] := by
  generalize hs : ([] : Bytes) = s at h
  cases h with
  | done s => exact ⟨rfl, rfl⟩
  | copy hno hrest => exact absurd hs (by simp)
  | wrap hrest => exact absurd hs (by simp)
  | wrapEnd hrest => exact absurd hs.symm (hls _ List.mem_cons_self)

/-- The pieces of a text with links are those of a run over it. -/
theorem scans_of_pieces {findAllString : Bytes → List Bytes} {fuel : ℕ} {text : Bytes}
    {ps : List Piece} (h : partialHtmlPieces findAllString fuel text = some ps) :
    (findAllString text = [] ∧ ps = text.map .byte) ∨
      findAllString text ≠ [] ∧ ∃ r, Scans (findAllString text) text ps r := by
  rw [partialHtmlPieces] at h
  cases hlinks : findAllString text with
  | nil =>
    rw [hlinks, Option.some.injEq] at h
    exact Or.inl ⟨rfl, h.symm⟩
  | cons link links =>
    rw [hlinks, Option.map_eq_some_iff] at h
    obtain ⟨st, hrun, rfl⟩ := h
    obtain ⟨qs, hscan, hps⟩ := scans_of_markedLoop eq_of_mem_head hrun
    rw [List.nil_append] at hps
    rw [← hps] at hscan
    exact Or.inr ⟨by simp, st.restText, hscan⟩

/-- What is shown of the text is its front. -/
theorem eraseMarkup_front {findAllString : Bytes → List Bytes} {fuel : ℕ} {text : Bytes}
    {ps : List Piece} (h : partialHtmlPieces findAllString fuel text = some ps) :
    eraseMarkup ps <+: text := by
  rw [eraseMarkup_eq]
  rcases scans_of_pieces h with ⟨_, rfl⟩ | ⟨_, r, hscan⟩
  · rw [flatMap_source_byte]
  · exact ⟨r, hscan.source⟩

/-- The links of the text are wrapped, in their order. -/
theorem wrappedLinks_of_pieces {findAllString : Bytes → List Bytes} {fuel : ℕ} {text : Bytes}
    {ps : List Piece} (h : partialHtmlPieces findAllString fuel text = some ps) :
    wrappedLinks ps = findAllString text := by
  rcases scans_of_pieces h with ⟨hnil, rfl⟩ | ⟨_, r, hscan⟩
  · rw [hnil, LinkScan.wrappedLinks, List.filterMap_map]
    exact List.filterMap_none text
  · exact hscan.wrappedLinks

/-- A run over a text with links gives its pieces. -/
theorem Scans.pieces {findAllString : Bytes → List Bytes} {text r : Bytes} {ps : List Piece}
    (hlinks : findAllString text ≠ []) (h : Scans (findAllString text) text ps r) {fuel : ℕ}
    (hfuel : ps.length ≤ fuel) : partialHtmlPieces findAllString fuel text = some ps := by
  rw [partialHtmlPieces]
  cases hls : findAllString text with
  | nil => exact absurd hls hlinks
  | cons link links =>
    rw [hls] at h
    obtain ⟨cur, hrun⟩ := h.markedLoop eq_of_mem_head [] hfuel
    dsimp only
    rw [hrun, Option.map_some, List.nil_append]

end ShareNotes.LinkScan
