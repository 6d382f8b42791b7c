import ShareNotes.Lib.Placements
import ShareNotes.LinkScan

/-!
# What becomes of the text around its links

The loop looks for one link after another from the left and copies one byte after
each, so it ends exactly when the links can be placed in the text in order with
at least one byte between them; a link that starts where the one before ends is
never found. It stops behind the last link and one more byte, so it copies the
whole text exactly when the links cannot be placed with two bytes to spare.
-/

namespace ShareNotes.LinkedText

open ShareNotes.Lib.Decimal ShareNotes.Lib.Placements ShareNotes.Linkify ShareNotes.LinkScan

/-- **What a run leaves of the text.** At least `n` bytes stood behind the last
link, the one that was copied included, exactly when the links can be placed so. -/
theorem placed_iff_left {ls : List Bytes} {s r : Bytes} {ps : List Piece} {n : ℕ}
    (h : Scans ls s ps r) (hls : ls ≠ []) : Placed (n + 2) ls s ↔ n < r.length := by
  induction h with
  | done s => exact absurd rfl hls
  | copy hno hrest ih => rw [placed_cons_iff hno, ih (by simp)]
  | @wrap l ls c s r ps hrest ih =>
    cases hrest with
    | done =>
      rw [placed_last_iff, List.length_cons]
      omega
    | _ => rw [placed_append_iff (by simp), ih (by simp)]
  | @wrapEnd l ls r ps hrest ih =>
    have hr : r = [] := by
      have hsource := hrest.source
      rw [List.append_eq_nil_iff] at hsource
      exact hsource.2
    rw [hr, List.length_nil]
    refine iff_of_false ?_ (Nat.not_lt_zero n)
    by_cases hnil : ls = []
    · intro hplaced
      rw [hnil] at hplaced
      have hlast : Placed (n + 2) [l] (l ++ []) := by
        rw [List.append_nil]
        exact hplaced
      rw [placed_last_iff, List.length_nil] at hlast
      omega
    · exact not_placed_self hnil

/-- **A run ends when the links can be placed.** -/
theorem exists_scans {ls : List Bytes} {s : Bytes} (hls : ∀ l ∈ ls, l ≠ [])
    (hplaced : Placed 0 ls s) : ∃ ps r, Scans ls s ps r := by
  induction hn : s.length using Nat.strong_induction_on generalizing ls s with
  | _ n ih =>
    cases ls with
    | nil => exact absurd hplaced not_placed_nil
    | cons l ls =>
      have hl : l ≠ [] := hls l List.mem_cons_self
      have hls' : ∀ l' ∈ ls, l' ≠ [] := fun l' hl' => hls l' (List.mem_cons_of_mem l hl')
      by_cases hstarts : l <+: s
      · obtain ⟨v, rfl⟩ := hstarts
        have hlen : 0 < l.length := List.length_pos_iff.mpr hl
        rw [List.length_append] at hn
        by_cases hnil : ls = []
        · subst hnil
          cases v with
          | nil =>
            rw [List.append_nil]
            exact ⟨_, _, .wrapEnd (.done [])⟩
          | cons c v => exact ⟨_, _, .wrap (.done v)⟩
        · cases v with
          | nil =>
            rw [List.append_nil] at hplaced
            exact absurd hplaced (not_placed_self hnil)
          | cons c v =>
            rw [placed_append_iff hnil] at hplaced
            rw [List.length_cons] at hn
            obtain ⟨ps, r, hscan⟩ := ih v.length (by omega) hls' hplaced rfl
            exact ⟨_, r, .wrap hscan⟩
      · cases s with
        | nil => exact absurd hplaced (not_placed_empty hl)
        | cons b s =>
          rw [placed_cons_iff hstarts] at hplaced
          rw [List.length_cons] at hn
          obtain ⟨ps, r, hscan⟩ := ih s.length (by omega) hls hplaced rfl
          exact ⟨_, r, .copy hstarts hscan⟩

/-- A run that ends has placed the links. -/
theorem placed_of_scans {ls : List Bytes} {s r : Bytes} {ps : List Piece} (h : Scans ls s ps r)
    (hls : ∀ l ∈ ls, l ≠ []) (hne : ls ≠ []) : Placed 0 ls s := by
  induction h with
  | done s => exact absurd rfl hne
  | copy hno hrest ih => exact (ih hls (by simp)).append_left [_]
  | @wrap l ls c s r ps hrest ih =>
    by_cases hnil : ls = []
    · rw [hnil]
      exact placed_last_iff.mpr (Nat.zero_le _)
    · rw [placed_append_iff hnil]
      exact ih (fun l' hl' => hls l' (List.mem_cons_of_mem l hl')) hnil
  | @wrapEnd l ls r ps hrest ih =>
    have hnil := (hrest.of_nil fun l' hl' => hls l' (List.mem_cons_of_mem l hl')).1
    rw [hnil]
    have hlast : Placed 0 [l] (l ++ []) := placed_last_iff.mpr (Nat.zero_le _)
    rw [List.append_nil] at hlast
    exact hlast

/-! ### The loop ends -/

/-- The loop of `partialHtmlParser` ends on a text. -/
def Terminates (findAllString : Bytes → List Bytes) (text : Bytes) : Prop :=
  ∃ fuel out, partialHtmlParser findAllString fuel text = some out

theorem terminates_of_placed {findAllString : Bytes → List Bytes} {text : Bytes}
    (hlinks : ∀ l ∈ findAllString text, l ≠ []) (hplaced : Placed 0 (findAllString text) text) :
    Terminates findAllString text := by
  obtain ⟨ps, r, hscan⟩ := exists_scans hlinks hplaced
  have hne : findAllString text ≠ [] := by
    intro hnil
    rw [hnil] at hplaced
    exact not_placed_nil hplaced
  refine ⟨ps.length, html ps, ?_⟩
  rw [partialHtmlParser_eq, hscan.pieces hne le_rfl, Option.map_some]

/-- **The loop ends exactly when the links can be placed** in order with at least
one byte between consecutive ones, or there are none. -/
theorem loop_ends_iff (findAllString : Bytes → List Bytes) (text : Bytes)
    (hlinks : ∀ l ∈ findAllString text, l ≠ []) :
    Terminates findAllString text ↔
      findAllString text = [] ∨ Placed 0 (findAllString text) text := by
  constructor
  · intro ⟨fuel, out, hrun⟩
    obtain ⟨ps, hps, _⟩ := partialHtmlParser_eq_some_iff.mp hrun
    rcases scans_of_pieces hps with ⟨hnil, _⟩ | ⟨hne, r, hscan⟩
    · exact Or.inl hnil
    · exact Or.inr (placed_of_scans hscan hlinks hne)
  · rintro (hnil | hplaced)
    · exact ⟨0, text, by rw [partialHtmlParser, hnil]⟩
    · exact terminates_of_placed hlinks hplaced

/-- The matches of a text in which one link stands alone. -/
def oneLink (_ : Bytes) : List Bytes := [ascii "http://a.b"]

theorem loop_ends_iff_oneLink : Terminates oneLink (ascii "see http://a.b and more") := by
  have hlinks : ∀ l ∈ oneLink (ascii "see http://a.b and more"), l ≠ [] := by decide
  have htext : ascii "see http://a.b and more" =
      ascii "see " ++ (ascii "http://a.b" ++ ascii " and more") := by decide
  exact (loop_ends_iff oneLink _ hlinks).mpr (Or.inr (.last htext (Nat.zero_le _)))

/-- The matches of a text in which the second link starts where the first one, with
its empty port, ends. -/
def adjacentLinks (_ : Bytes) : List Bytes := [ascii "a.com:", ascii "b.com"]

/-- A loop that still has a link to find at the end of the text does not end. -/
theorem linkLoop_stuck {l : Bytes} (hl : l ≠ []) (ls : List Bytes) (out : Bytes) (fuel : ℕ) :
    linkLoop fuel ⟨l :: ls, l, out, []⟩ = none := by
  have hstarts : ¬l.isPrefixOf [] = true := by
    rw [List.isPrefixOf_iff_prefix, List.prefix_nil]
    exact hl
  have hwrap : LinkLoop.wrap ⟨l :: ls, l, out, []⟩ = ⟨l :: ls, l, out, []⟩ := by
    rw [LinkLoop.wrap, if_neg hstarts]
  induction fuel with
  | zero => rw [linkLoop, if_neg (by simp)]
  | succ fuel ih =>
    rw [linkLoop, if_neg (by simp), hwrap]
    exact ih

/-- The byte copied after the first link is the first of the second, which is then never found. -/
theorem adjacentLinks_loop : ¬Terminates adjacentLinks (ascii "a.com:b.com") := by
  intro ⟨fuel, out, hrun⟩
  rw [partialHtmlParser] at hrun
  change (linkLoop fuel ⟨[ascii "a.com:", ascii "b.com"], ascii "a.com:", [],
    ascii "a.com:b.com"⟩).map _ = some out at hrun
  have hstuck : linkLoop fuel ⟨[ascii "a.com:", ascii "b.com"], ascii "a.com:", [],
      ascii "a.com:b.com"⟩ = none := by
    rcases fuel with _ | _ | _ | _ | _ | fuel
    · rfl
    · rfl
    · rfl
    · rfl
    · rfl
    · exact linkLoop_stuck (by decide) [] _ fuel
  rw [hstuck] at hrun
  exact absurd hrun (by simp)

/-! ### The text is copied -/

/-- The pieces show the whole text when nothing stands two bytes behind the last link. -/
theorem eraseMarkup_pieces_iff {findAllString : Bytes → List Bytes} {fuel : ℕ} {text : Bytes}
    {ps : List Piece} (hps : partialHtmlPieces findAllString fuel text = some ps) :
    eraseMarkup ps = text ↔ ¬Placed 2 (findAllString text) text := by
  rw [eraseMarkup_eq]
  rcases scans_of_pieces hps with ⟨hnil, hcopy⟩ | ⟨hne, r, hscan⟩
  · rw [hnil, hcopy]
    exact iff_of_true (flatMap_source_byte text) not_placed_nil
  · rw [placed_iff_left hscan hne, Nat.not_lt, Nat.le_zero, List.length_eq_zero_iff]
    have hsource := hscan.source
    constructor
    · intro heq
      rw [heq] at hsource
      exact List.append_right_eq_self.mp hsource
    · intro hr
      rw [hr, List.append_nil] at hsource
      exact hsource

/-- **The whole text is copied exactly when nothing stands two bytes behind the last link.** -/
theorem eraseMarkup_eq_iff {findAllString : Bytes → List Bytes} {fuel : ℕ} {text out : Bytes}
    (hrun : partialHtmlParser findAllString fuel text = some out) :
    ∃ ps, partialHtmlPieces findAllString fuel text = some ps ∧ html ps = out ∧
      (eraseMarkup ps = text ↔ ¬Placed 2 (findAllString text) text) := by
  obtain ⟨ps, hps, hout⟩ := partialHtmlParser_eq_some_iff.mp hrun
  exact ⟨ps, hps, hout, eraseMarkup_pieces_iff hps⟩

theorem eraseMarkup_eq_iff_oneLink :
    ∃ ps, partialHtmlPieces oneLink 20 (ascii "see http://a.b!") = some ps ∧
      html ps = ascii "see <a href=http://a.b target=_new>http://a.b</a>!" ∧
      (eraseMarkup ps = ascii "see http://a.b!" ↔
        ¬Placed 2 [ascii "http://a.b"] (ascii "see http://a.b!")) := by
  have hrun : partialHtmlParser oneLink 20 (ascii "see http://a.b!") =
      some (ascii "see <a href=http://a.b target=_new>http://a.b</a>!") := by decide
  exact eraseMarkup_eq_iff hrun

/-- What follows the last link is lost, but for one byte. -/
theorem oneLink_loses :
    ∃ ps, partialHtmlPieces oneLink 20 (ascii "see http://a.b and more") = some ps ∧
      partialHtmlParser oneLink 20 (ascii "see http://a.b and more") = some (html ps) ∧
      eraseMarkup ps = ascii "see http://a.b " := by
  refine ⟨[.byte 115, .byte 101, .byte 101, .byte 32, .anchor (ascii "http://a.b"), .byte 32], ?_⟩
  decide

end ShareNotes.LinkedText
