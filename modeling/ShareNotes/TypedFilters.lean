import ShareNotes.Lib.Url
import ShareNotes.MuxRedirects

/-!
# The filter that was typed

The filter menu opens the path of a filter with the typed string behind it, and
does not encode the string. The browser takes it for a part of a URL, and the
server reads the path that comes out of that, so a question mark cuts the string,
`%41` becomes a letter, a blank at the end is lost, and dot segments lead to any
other handler.

The strings that the expression of the filters takes and that do not end in a
blank are the only ones that reach a filter handler as they were typed.
-/

namespace ShareNotes.TypedFilters

open ShareNotes.Lib.Decimal ShareNotes.Lib.Url ShareNotes.Routing ShareNotes.UrlGrammar
open ShareNotes.MuxRedirects

/-! ### The menu -/

/-- Open a path with the text of the field behind it, unless the field is empty. -/
def openFilter (path filterText : Bytes) : Option Bytes :=
  if filterText = [] then none else some (path ++ filterText)

def titleFilter : Bytes → Option Bytes := openFilter (ascii "/TitleFilter/")

def textFilter : Bytes → Option Bytes := openFilter (ascii "/TextFilter/")

def bothFilter : Bytes → Option Bytes := openFilter (ascii "/BothFilter/")

/-- The entries of the menu. -/
inductive Filter
  | title
  | text
  | both
  deriving DecidableEq

def Filter.opens : Filter → Bytes → Option Bytes
  | .title => titleFilter
  | .text => textFilter
  | .both => bothFilter

def Filter.name : Filter → Bytes
  | .title => ascii "TitleFilter"
  | .text => ascii "TextFilter"
  | .both => ascii "BothFilter"

/-- The handler that an entry is for. -/
def Filter.handler : Filter → Bytes → Route
  | .title => .titleFilterHandler
  | .text => .textFilterHandler
  | .both => .bothFilterHandler

theorem opens_eq (filter : Filter) (s : Bytes) :
    filter.opens s = if s = [] then none else some (slashed filter.name ++ s) := by
  cases filter <;> rfl

/-- The path that the server dispatches when a filter is typed; a path with a bad
escape is dispatched nowhere. -/
def Answers (filter : Filter) (s path : Bytes) : Prop :=
  ∃ url requested, filter.opens s = some url ∧
    unescape (requestPath url) = some requested ∧ Leads requested path

/-- The matching handler gets what was typed, and no other handler answers. -/
structure Arrives (filter : Filter) (s : Bytes) : Prop where
  sameText : ∀ path input, Answers filter s path → routed path = filter.handler input → input = s
  sameKind : ∀ path, Answers filter s path → routed path ≠ .notFound →
    ∃ input, routed path = filter.handler input

/-- Letters, digits and spaces, without a space at the end. -/
def Plain (s : Bytes) : Prop := (∀ b ∈ s, isFilterByte b = true) ∧ s.getLast? ≠ some 32

/-- A path below a note or filter pattern whose rest the expression does not take. -/
def Rejected (path : Bytes) : Prop :=
  ∃ b ∈ anchoredBodies, ∃ tail, path = slashed b.1 ++ tail ∧
    ¬(tail ≠ [] ∧ tail.all b.2.1 = true)

/-! ### The paths of the handlers -/

theorem anchored_ne_notFound : ∀ b ∈ anchoredBodies, ∀ tail, b.2.2 tail ≠ .notFound := by
  simp [anchoredBodies]

/-- The bodies of the filters belong to their names. -/
theorem anchored_handler {filter : Filter} {input : Bytes} : ∀ b ∈ anchoredBodies, ∀ tail,
    b.2.2 tail = filter.handler input →
      b.1 = filter.name ∧ b.2.1 = isFilterByte ∧ tail = input := by
  cases filter <;> simp [anchoredBodies, Filter.handler, Filter.name]

theorem mem_anchoredBodies (filter : Filter) :
    (filter.name, isFilterByte, filter.handler) ∈ anchoredBodies := by
  cases filter <;> simp [anchoredBodies, Filter.handler, Filter.name]

/-- A path below the root is below an anchored name, or shows one of the other pages. -/
theorem chosen_cases {path : Bytes} (hroot : ascii "/" <+: path) :
    (∃ b ∈ anchoredBodies, ∃ tail, path = slashed b.1 ++ tail) ∨
      chosen path = .indexHandler ∨ chosen path = .addNoteHandler ∨
        chosen path = .newNoteHandler := by
  by_cases hname : ∃ name ∈ anchoredBodies.map Prod.fst, slashed name <+: path
  · left
    obtain ⟨name, hmem, tail, hpath⟩ := hname
    obtain ⟨b, hb, rfl⟩ := List.mem_map.mp hmem
    exact ⟨b, hb, tail, hpath.symm⟩
  · exact Or.inr (chosen_unanchored hroot fun name hmem hstarts => hname ⟨name, hmem, hstarts⟩)

theorem chosen_notFound_iff {path : Bytes} (hroot : ascii "/" <+: path) :
    chosen path = .notFound ↔ Rejected path := by
  constructor
  · intro h
    rcases chosen_cases hroot with ⟨b, hb, tail, hpath⟩ | hplain
    · refine ⟨b, hb, tail, hpath, fun htail => ?_⟩
      rw [hpath, chosen_anchored b hb, if_pos htail] at h
      exact anchored_ne_notFound b hb tail h
    · rw [h] at hplain
      simp at hplain
  · rintro ⟨b, hb, tail, rfl, htail⟩
    rw [chosen_anchored b hb, if_neg htail]

/-- **The paths that reach a filter handler.** -/
theorem chosen_handler_iff {path : Bytes} (hroot : ascii "/" <+: path) {filter : Filter}
    {input : Bytes} : chosen path = filter.handler input ↔
      path = slashed filter.name ++ input ∧ input ≠ [] ∧ ∀ b ∈ input, isFilterByte b = true := by
  constructor
  · intro h
    rcases chosen_cases hroot with ⟨b, hb, tail, hpath⟩ | hplain
    · rw [hpath, chosen_anchored b hb] at h
      split at h
      · rename_i htail
        obtain ⟨hname, hcls, rfl⟩ := anchored_handler b hb tail h
        rw [hcls, List.all_eq_true] at htail
        rw [hpath, hname]
        exact ⟨rfl, htail⟩
      · cases filter <;> exact absurd h (by simp [Filter.handler])
    · rw [h] at hplain
      cases filter <;> simp [Filter.handler] at hplain
  · rintro ⟨rfl, hne, hinput⟩
    rw [chosen_anchored _ (mem_anchoredBodies filter),
      if_pos ⟨hne, List.all_eq_true.mpr hinput⟩]

/-! ### Strings of filter bytes -/

/-- A filter byte means nothing to a URL. -/
theorem isLiteral_filterByte {b : UInt8} (hb : isFilterByte b = true) : isLiteral b = true := by
  rw [isLiteral, Bool.not_eq_true', ← Bool.not_eq_true, List.contains_iff_mem]
  intro hmem
  have hnone : ∀ c ∈ [9, 10, 13, 35, 37, 46, 47, 63, 92], isFilterByte c = false := by
    decide +kernel
  rw [hnone b hmem] at hb
  exact Bool.noConfusion hb

theorem isBlank_filterByte {b : UInt8} (hb : isFilterByte b = true) :
    isBlank b = true ↔ b = 32 := by
  constructor
  · intro hblank
    rw [isBlank, decide_eq_true_eq] at hblank
    simp only [isFilterByte, isDigit, Bool.or_eq_true, Bool.and_eq_true, decide_eq_true_eq] at hb
    rcases hb with ((hb | hb) | hb) | hb
    · omega
    · omega
    · omega
    · exact beq_iff_eq.mp hb
  · rintro rfl
    decide

/-- Nothing is cut off a plain string. -/
theorem plain_iff {s : Bytes} (hs : ∀ b ∈ s, isFilterByte b = true) :
    Plain s ↔ s.rdropWhile isBlank = s := by
  rw [Plain, List.rdropWhile_eq_self_iff]
  constructor
  · intro ⟨_, hlast⟩ hne hblank
    rw [isBlank_filterByte (hs _ (List.getLast_mem hne))] at hblank
    rw [List.getLast?_eq_getLast_of_ne_nil hne, hblank] at hlast
    exact hlast rfl
  · intro h
    refine ⟨hs, fun hlast => ?_⟩
    have hne : s ≠ [] := by
      rintro rfl
      exact absurd hlast (by simp)
    rw [List.getLast?_eq_getLast_of_ne_nil hne, Option.some.injEq] at hlast
    exact h hne (by rw [hlast]; decide)

theorem kept_filterBytes {s : Bytes} (hs : ∀ b ∈ s, isFilterByte b = true) (hne : s ≠ []) :
    Kept s where
  ne_nil := hne
  ne_dot := by
    rintro rfl
    exact absurd hs (by decide)
  ne_dots := by
    rintro rfl
    exact absurd hs (by decide)
  no_slash h := absurd (hs 47 h) (by decide)

theorem name_filterBytes (filter : Filter) : ∀ b ∈ filter.name, isFilterByte b = true := by
  cases filter <;> decide +kernel

/-- No pattern has more than a name in it. -/
theorem not_pattern {filter : Filter} (tail : Bytes) :
    slashed filter.name ++ tail ++ ascii "/" ∉ routes.map Prod.fst := by
  have hno : 47 ∉ filter.name := fun h => absurd (name_filterBytes filter 47 h) (by decide)
  rw [routes_patterns, List.mem_cons, List.mem_map]
  rintro (hroot | ⟨name, hname, hpattern⟩)
  · have hlen := congrArg List.length hroot
    rw [List.length_append, List.length_append, slashed_length] at hlen
    have hslash : (ascii "/").length = 1 := rfl
    omega
  · rw [List.append_assoc, ← List.append_nil (slashed name)] at hpattern
    have htail := (slashed_append_inj (slash_not_mem_patternNames name hname) hno hpattern).2
    exact absurd htail.symm (List.append_ne_nil_of_right_ne_nil tail (by decide))

/-- A string without slashes, backslashes and percent signs. -/
def Segment (s : Bytes) : Prop := ∀ b ∈ s, b ≠ 37 ∧ b ≠ 47 ∧ b ≠ 92

theorem Segment.noSlash {s : Bytes} (hs : Segment s) : ∀ b ∈ s, b ≠ 37 ∧ isSlash b = false := by
  intro b hb
  obtain ⟨hpercent, h47, h92⟩ := hs b hb
  rw [isSlash, decide_eq_false h47, decide_eq_false h92]
  exact ⟨hpercent, rfl⟩

/-- **What answers a segment**: the root for the two dots, or the path with what is
left of the segment. -/
theorem answers_segment {filter : Filter} {s path : Bytes} (hs : Segment s)
    (h : Answers filter s path) :
    path = if cut s = ascii ".." then ascii "/"
      else slashed filter.name ++ if cut s = ascii "." then [] else cut s := by
  obtain ⟨url, requested, hurl, hrequested, hleads⟩ := h
  rw [opens_eq] at hurl
  obtain ⟨_, hurl⟩ := Option.ite_none_left_eq_some.mp hurl
  have hname : Kept filter.name :=
    kept_filterBytes (name_filterBytes filter) (by cases filter <;> decide)
  rw [← Option.some.inj hurl, slashed_append, unescape_requestPath
    (fun b hb => isLiteral_filterByte (name_filterBytes filter b hb)) hs.noSlash,
    Option.some.injEq] at hrequested
  rw [← hrequested] at hleads
  by_cases htwo : cut s = ascii ".."
  · rw [if_pos htwo] at hleads ⊢
    exact hleads.unique (.here (patterns_dispatched _ (by decide)))
  · rw [if_neg htwo] at hleads ⊢
    by_cases hone : cut s = ascii "."
    · rw [if_pos hone] at hleads ⊢
      have htail : slashed filter.name ++ [] = 47 :: (filter.name ++ [47]) := slashed_append _ []
      rw [← htail] at hleads
      exact hleads.unique (leads_slashed hname (fun h => absurd rfl h) (not_pattern []))
    · rw [if_neg hone, ← slashed_append] at hleads
      rw [if_neg hone]
      exact hleads.unique (leads_slashed hname
        (fun hne => ⟨hne, hone, htwo, fun h => (hs 47 (mem_cut h)).2.1 rfl⟩) (not_pattern _))

theorem segment_filterBytes {s : Bytes} (hs : ∀ b ∈ s, isFilterByte b = true) : Segment s := by
  intro b hb
  have hliteral := isLiteral_filterByte (hs b hb)
  exact ⟨isLiteral_ne hliteral (by decide), isLiteral_ne hliteral (by decide),
    isLiteral_ne hliteral (by decide)⟩

/-- **Filter bytes arrive** without the spaces at their end. -/
theorem answers_filterBytes {filter : Filter} {s path : Bytes}
    (hs : ∀ b ∈ s, isFilterByte b = true) (h : Answers filter s path) :
    path = slashed filter.name ++ s.rdropWhile isBlank := by
  have hcut : cut s = s.rdropWhile isBlank :=
    cut_literal fun b hb => isLiteral_filterByte (hs b hb)
  have hdot : 46 ∉ cut s := fun h => absurd (hs 46 (mem_cut h)) (by decide)
  have hone : cut s ≠ ascii "." := fun h => hdot (h ▸ List.mem_cons_self)
  have htwo : cut s ≠ ascii ".." := fun h => hdot (h ▸ List.mem_cons_self)
  rw [answers_segment (segment_filterBytes hs) h, if_neg htwo, if_neg hone, hcut]

theorem Answers.root {filter : Filter} {s path : Bytes} (h : Answers filter s path) :
    ascii "/" <+: path := by
  obtain ⟨url, requested, _, hrequested, hleads⟩ := h
  obtain ⟨rest, rfl⟩ := unescape_requestPath_cases hrequested
  exact hleads.root ⟨rest, rfl⟩

theorem Answers.routed {filter : Filter} {s path : Bytes} (h : Answers filter s path) :
    routed path = chosen path := by
  obtain ⟨_, _, _, _, hleads⟩ := h
  exact hleads.routed

/-- A filter is answered by one path at most. -/
theorem Answers.unique {filter : Filter} {s path path' : Bytes} (h : Answers filter s path)
    (h' : Answers filter s path') : path = path' := by
  obtain ⟨url, requested, hurl, hrequested, hleads⟩ := h
  obtain ⟨url', requested', hurl', hrequested', hleads'⟩ := h'
  rw [hurl, Option.some.injEq] at hurl'
  rw [← hurl', hrequested, Option.some.injEq] at hrequested'
  rw [← hrequested'] at hleads'
  exact hleads.unique hleads'

/-! ### What arrives -/

/-- A plain string is what the filter handler is given. -/
theorem answers_plain {filter : Filter} {s path : Bytes} (hs : Plain s)
    (h : Answers filter s path) : routed path = filter.handler s := by
  have hne : s ≠ [] := by
    rintro rfl
    obtain ⟨url, _, hurl, _⟩ := h
    rw [opens_eq, if_pos rfl] at hurl
    exact absurd hurl (by simp)
  rw [h.routed, chosen_handler_iff h.root, answers_filterBytes hs.1 h, (plain_iff hs.1).mp hs]
  exact ⟨rfl, hne, hs.1⟩

theorem handler_inj {filter : Filter} {s t : Bytes} (h : filter.handler s = filter.handler t) :
    s = t := by
  cases filter <;> exact (by simpa [Filter.handler] using h)

/-- **Which typed strings reach their handler as they are**: the plain ones, apart
from those that no handler answers. -/
theorem arrives_iff (filter : Filter) (s : Bytes) :
    Arrives filter s ↔ Plain s ∨ ∀ path, Answers filter s path → Rejected path := by
  constructor
  · intro h
    by_cases hnone : ∀ path, Answers filter s path → Rejected path
    · exact Or.inr hnone
    · -- some path is answered, by the filter and for what was typed
      left
      push Not at hnone
      obtain ⟨path, hanswers, hrejected⟩ := hnone
      have hrouted : routed path ≠ .notFound := by
        rw [hanswers.routed]
        exact fun hnot => hrejected ((chosen_notFound_iff hanswers.root).mp hnot)
      obtain ⟨input, hinput⟩ := h.sameKind path hanswers hrouted
      obtain rfl := h.sameText path input hanswers hinput
      rw [hanswers.routed, chosen_handler_iff hanswers.root] at hinput
      obtain ⟨hpath, _, hbytes⟩ := hinput
      rw [answers_filterBytes hbytes hanswers] at hpath
      exact (plain_iff hbytes).mpr (List.append_cancel_left hpath)
  · rintro (hplain | hrejected)
    · constructor
      · intro path input hanswers hinput
        rw [answers_plain hplain hanswers] at hinput
        exact (handler_inj hinput).symm
      · intro path hanswers _
        exact ⟨s, answers_plain hplain hanswers⟩
    · have hnone : ∀ path, Answers filter s path → routed path = .notFound := by
        intro path hanswers
        rw [hanswers.routed]
        exact (chosen_notFound_iff hanswers.root).mpr (hrejected path hanswers)
      constructor
      · intro path input hanswers hinput
        rw [hnone path hanswers] at hinput
        cases filter <;> exact absurd hinput (by simp [Filter.handler])
      · intro path hanswers hrouted
        exact absurd (hnone path hanswers) hrouted

/-- The typed text is cut at a question mark, and dot segments lead to other handlers. -/
theorem typed_isLost :
    (∃ path, Answers .title (ascii "a?b") path ∧ routed path = .titleFilterHandler (ascii "a")) ∧
      (∃ path, Answers .title (ascii "../AddNote/") path ∧ routed path = .addNoteHandler) ∧
      ¬Arrives .title (ascii "a?b") ∧ ¬Arrives .title (ascii "../AddNote/") := by
  have hquery : Answers .title (ascii "a?b") (ascii "/TitleFilter/a") :=
    ⟨_, ascii "/TitleFilter/a", rfl, by decide +kernel, .here (by decide +kernel)⟩
  have hdots : Answers .title (ascii "../AddNote/") (ascii "/AddNote/") :=
    ⟨_, ascii "/AddNote/", rfl, by decide +kernel, .here (by decide +kernel)⟩
  have hqueryRouted : routed (ascii "/TitleFilter/a") = .titleFilterHandler (ascii "a") := by
    decide +kernel
  have hdotsRouted : routed (ascii "/AddNote/") = .addNoteHandler := by decide +kernel
  refine ⟨⟨_, hquery, hqueryRouted⟩, ⟨_, hdots, hdotsRouted⟩, fun h => ?_, fun h => ?_⟩
  · exact absurd (h.sameText _ (ascii "a") hquery hqueryRouted) (by decide)
  · obtain ⟨input, hinput⟩ := h.sameKind _ hdots (by rw [hdotsRouted]; decide)
    rw [hdotsRouted] at hinput
    exact absurd hinput (by simp [Filter.handler])

/-! ### One segment -/

theorem exists_answers {filter : Filter} {s : Bytes} (hs : Segment s) (hne : s ≠ []) :
    ∃ path, Answers filter s path := by
  have hrequested := unescape_requestPath
    (fun b hb => isLiteral_filterByte (name_filterBytes filter b hb)) hs.noSlash
  obtain ⟨last, hlast⟩ := exists_leads _
  exact ⟨last, _, _, by rw [opens_eq, if_neg hne, slashed_append], hrequested, hlast⟩

/-- **A string without slashes and percent signs** arrives when it is plain, or when
what is left of it is empty or has a byte that no filter takes, two dots apart. -/
theorem arrives_segment_iff (filter : Filter) {s : Bytes} (hs : Segment s) :
    Arrives filter s ↔ Plain s ∨
      (cut s ≠ ascii ".." ∧ (cut s = [] ∨ ∃ b ∈ cut s, isFilterByte b = false)) := by
  by_cases hnil : s = []
  · have hplain : Plain s := by
      rw [hnil]
      exact ⟨by simp, by simp⟩
    have hnone {path : Bytes} : ¬Answers filter s path := by
      rintro ⟨url, _, hurl, _⟩
      rw [opens_eq, if_pos hnil] at hurl
      exact absurd hurl (by simp)
    exact iff_of_true ⟨fun _ _ h => absurd h hnone, fun _ h => absurd h hnone⟩ (Or.inl hplain)
  · obtain ⟨path, hanswers⟩ : ∃ path, Answers filter s path := exists_answers hs hnil
    have hpath := answers_segment hs hanswers
    have hone : Arrives filter s ↔ Plain s ∨ chosen path = .notFound := by
      constructor
      · intro h
        refine or_iff_not_imp_right.mpr fun hrouted => ?_
        rw [← hanswers.routed] at hrouted
        obtain ⟨input, hinput⟩ := h.sameKind path hanswers hrouted
        obtain rfl := h.sameText path input hanswers hinput
        rw [hanswers.routed, chosen_handler_iff hanswers.root] at hinput
        obtain ⟨hpath, _, hbytes⟩ := hinput
        rw [answers_filterBytes hbytes hanswers] at hpath
        exact (plain_iff hbytes).mpr (List.append_cancel_left hpath)
      · intro h
        refine ⟨fun path' input hanswers' hinput => ?_, fun path' hanswers' hrouted => ?_⟩ <;>
          obtain rfl := hanswers.unique hanswers' <;> rcases h with hplain | hnot
        · rw [answers_plain hplain hanswers] at hinput
          exact (handler_inj hinput).symm
        · rw [hanswers.routed, hnot] at hinput
          cases filter <;> exact absurd hinput (by simp [Filter.handler])
        · exact ⟨s, answers_plain hplain hanswers⟩
        · rw [hanswers.routed] at hrouted
          exact absurd hnot hrouted
    rw [hone]
    refine or_congr_right ?_
    by_cases htwo : cut s = ascii ".."
    · -- the root shows the index
      rw [hpath, if_pos htwo]
      exact iff_of_false (by decide +kernel) fun h => h.1 htwo
    · rw [hpath, if_neg htwo, chosen_anchored _ (mem_anchoredBodies filter)]
      have hrest : (cut s = [] ∨ ∃ b ∈ cut s, isFilterByte b = false) ↔
          ¬((if cut s = ascii "." then [] else cut s) ≠ [] ∧
            (if cut s = ascii "." then [] else cut s).all isFilterByte = true) := by
        by_cases hdot : cut s = ascii "."
        · rw [if_pos hdot, hdot]
          exact iff_of_true (Or.inr ⟨46, by decide, by decide⟩) fun h => h.1 rfl
        · rw [if_neg hdot, not_and_or, not_not, List.all_eq_true]
          push Not
          simp only [Bool.not_eq_true]
      generalize (if cut s = ascii "." then [] else cut s) = tail at hrest ⊢
      by_cases htail : tail ≠ [] ∧ tail.all isFilterByte = true
      · rw [if_pos htail]
        refine iff_of_false (fun h => ?_) fun h => hrest.mp h.2 htail
        exact anchored_ne_notFound _ (mem_anchoredBodies filter) _ h
      · rw [if_neg htail]
        exact iff_of_true rfl ⟨htwo, hrest.mpr htail⟩

end ShareNotes.TypedFilters
