import ShareNotes.Runs

/-!
# The paths that the server answers

`Grammar` lists the paths that the handlers are written for, each with the body
that it names. The ten patterns of notes and filters check the rest of the path,
so the server agrees with the grammar there. The expression behind the other
three patterns has an alternative that matches every path with a slash in it, so
their bodies also run for every path that merely starts with the pattern.

The mux is taken at its main rule, by which the longest registered pattern that
is a prefix of the path is chosen; a path that it redirects is not dispatched.
-/

namespace ShareNotes.UrlGrammar

open ShareNotes.Lib.Decimal ShareNotes.Lib.Interaction
open ShareNotes.Linkify ShareNotes.Calls ShareNotes.Handlers ShareNotes.Routing ShareNotes.Runs
open Program

/-! ### Paths that start with a name -/

/-- `/name/`. -/
def slashed (name : Bytes) : Bytes := ascii "/" ++ name ++ ascii "/"

theorem slashed_append (name tail : Bytes) : slashed name ++ tail = 47 :: (name ++ 47 :: tail) := by
  simp only [slashed, List.append_assoc]
  rfl

theorem slashed_length (name : Bytes) : (slashed name).length = name.length + 2 := by
  simp only [slashed, List.length_append]
  show 1 + name.length + 1 = _
  omega

/-- The name and the rest of a path are read off it. -/
theorem slashed_append_inj {name name' tail tail' : Bytes} (hname : 47 ∉ name) (hname' : 47 ∉ name')
    (h : slashed name ++ tail = slashed name' ++ tail') : name = name' ∧ tail = tail' := by
  rw [slashed_append, slashed_append, List.cons.injEq] at h
  replace h := h.2
  induction name generalizing name' with
  | nil =>
    cases name' with
    | nil => exact ⟨rfl, (List.cons.inj h).2⟩
    | cons b name' =>
      rw [List.nil_append, List.cons_append, List.cons.injEq] at h
      rw [← h.1] at hname'
      exact absurd List.mem_cons_self hname'
  | cons b name ih =>
    rw [List.mem_cons, not_or] at hname
    cases name' with
    | nil =>
      rw [List.nil_append, List.cons_append, List.cons.injEq] at h
      exact absurd h.1.symm hname.1
    | cons b' name' =>
      rw [List.mem_cons, not_or] at hname'
      rw [List.cons_append, List.cons_append, List.cons.injEq] at h
      obtain ⟨heq, htail⟩ := ih hname.2 hname'.2 h.2
      exact ⟨by rw [h.1, heq], htail⟩

theorem slashed_inj {name name' tail : Bytes} (hname : 47 ∉ name) (hname' : 47 ∉ name')
    (h : slashed name <+: slashed name' ++ tail) : name = name' := by
  obtain ⟨rest, hrest⟩ := h
  exact (slashed_append_inj hname hname' hrest).1

/-- **What an anchored expression captures** from a path that starts with one of its names. -/
theorem findStringSubmatch_slashed {names : List Bytes} (hnames : ∀ n ∈ names, 47 ∉ n)
    {name : Bytes} (hname : name ∈ names) (cls : UInt8 → Bool) (tail : Bytes) :
    findStringSubmatch names cls (slashed name ++ tail) =
      if tail ≠ [] ∧ tail.all cls = true then some (name, tail) else none := by
  have hdrop : (slashed name ++ tail).drop (name.length + 2) = tail := by
    rw [← slashed_length, List.drop_left]
  have hself : (ascii "/" ++ name ++ ascii "/").isPrefixOf (slashed name ++ tail) = true :=
    List.isPrefixOf_iff_prefix.mpr (List.prefix_append _ _)
  have hother : ∀ n ∈ names, n ≠ name →
      (ascii "/" ++ n ++ ascii "/").isPrefixOf (slashed name ++ tail) = false := by
    intro n hn hne
    rw [← Bool.not_eq_true, List.isPrefixOf_iff_prefix]
    exact fun hstarts => hne (slashed_inj (hnames n hn) (hnames name hname) hstarts)
  by_cases htail : tail ≠ [] ∧ tail.all cls = true
  · rw [if_pos htail]
    obtain ⟨pre, post, hsplit, hpre⟩ := List.eq_append_cons_of_mem hname
    rw [findStringSubmatch, List.findSome?_eq_some_iff]
    refine ⟨pre, name, post, hsplit, ?_, fun n hn => ?_⟩
    · rw [hself, hdrop]
      cases tail with
      | nil => exact absurd rfl htail.1
      | cons b rest => exact if_pos htail.2
    · have hmem : n ∈ names := by
        rw [hsplit]
        exact List.mem_append_left _ hn
      rw [hother n hmem fun heq => hpre (heq ▸ hn)]
  · rw [if_neg htail, findStringSubmatch, List.findSome?_eq_none_iff]
    intro n hn
    by_cases heq : n = name
    · rw [heq, hself, hdrop]
      cases tail with
      | nil => rfl
      | cons b rest => exact if_neg fun h => htail ⟨by simp, h⟩
    · rw [hother n hn heq]

/-! ### The longest pattern -/

theorem longestPattern_mem {α : Type} {path : Bytes} {ps : List (Bytes × α)} {p : Bytes × α}
    (h : longestPattern path ps = some p) : p ∈ ps ∧ p.1 <+: path := by
  induction ps with
  | nil => exact absurd h (by simp [longestPattern])
  | cons q ps ih =>
    rw [longestPattern] at h
    cases hrest : longestPattern path ps with
    | none =>
      rw [hrest] at h
      obtain ⟨hq, heq⟩ := Option.ite_none_right_eq_some.mp h
      rw [← Option.some.inj heq]
      exact ⟨List.mem_cons_self, List.isPrefixOf_iff_prefix.mp hq⟩
    | some r =>
      rw [hrest] at h ih
      dsimp only at h
      split at h
      · rename_i hq
        rw [Bool.and_eq_true] at hq
        rw [← Option.some.inj h]
        exact ⟨List.mem_cons_self, List.isPrefixOf_iff_prefix.mp hq.1⟩
      · obtain ⟨hmem, hstarts⟩ := ih h
        exact ⟨List.mem_cons_of_mem q hmem, hstarts⟩

/-- **The longest pattern** is the one that is longer than all others that match. -/
theorem longestPattern_eq {α : Type} {path : Bytes} {ps : List (Bytes × α)} {p : Bytes × α}
    (hp : p ∈ ps) (hstarts : p.1 <+: path)
    (hlongest : ∀ q ∈ ps, q.1 <+: path → q = p ∨ q.1.length < p.1.length) :
    longestPattern path ps = some p := by
  induction ps with
  | nil => exact absurd hp List.not_mem_nil
  | cons q ps ih =>
    have hlongest' : ∀ r ∈ ps, r.1 <+: path → r = p ∨ r.1.length < p.1.length :=
      fun r hr => hlongest r (List.mem_cons_of_mem q hr)
    rw [longestPattern]
    by_cases hmem : p ∈ ps
    · rw [ih hmem hlongest']
      dsimp only
      split
      · rename_i hq
        rw [Bool.and_eq_true, List.isPrefixOf_iff_prefix, decide_eq_true_iff] at hq
        rcases hlongest q List.mem_cons_self hq.1 with heq | hlt
        · rw [heq]
        · omega
      · rfl
    · obtain rfl := (List.mem_cons.mp hp).resolve_right hmem
      have hself : p.1.isPrefixOf path = true := List.isPrefixOf_iff_prefix.mpr hstarts
      cases hrest : longestPattern path ps with
      | none =>
        dsimp only
        rw [if_pos hself]
      | some r =>
        obtain ⟨hr, hrstarts⟩ := longestPattern_mem hrest
        have hlt : r.1.length < p.1.length := by
          rcases hlongest' r hr hrstarts with heq | hlt
          · rw [heq] at hr
            exact absurd hr hmem
          · exact hlt
        dsimp only
        rw [hself, Bool.true_and, if_pos (decide_eq_true hlt.le)]

theorem longestPattern_eq_none {α : Type} {path : Bytes} {ps : List (Bytes × α)}
    (h : ∀ p ∈ ps, ¬p.1 <+: path) : longestPattern path ps = none := by
  cases hp : longestPattern path ps with
  | none => rfl
  | some p =>
    obtain ⟨hmem, hstarts⟩ := longestPattern_mem hp
    exact absurd hstarts (h p hmem)

/-! ### The registered patterns -/

/-- The names in the patterns after the first, which is the root. -/
def patternNames : List Bytes :=
  [ascii "AddNote", ascii "NewNote", ascii "EditNote", ascii "DeleteNote", ascii "PasteBinNote",
    ascii "Note", ascii "SaveNote", ascii "ConfirmDeleteNote", ascii "ConfirmPasteBinNote",
    ascii "TitleFilter", ascii "TextFilter", ascii "BothFilter"]

theorem routes_patterns : routes.map Prod.fst = ascii "/" :: patternNames.map slashed := by decide

theorem slash_not_mem_patternNames : ∀ name ∈ patternNames, 47 ∉ name := by decide

theorem routes_nodup : (routes.map Prod.fst).Nodup := by decide

/-- A pattern is the root or has one of the names. -/
theorem pattern_cases {p : Bytes × Bytes × (Bytes → Route)} (hp : p ∈ routes) :
    p.1 = ascii "/" ∨ ∃ name ∈ patternNames, slashed name = p.1 := by
  have hpattern : p.1 ∈ routes.map Prod.fst := List.mem_map_of_mem hp
  rw [routes_patterns, List.mem_cons, List.mem_map] at hpattern
  exact hpattern

/-- A path that starts with a name is served by the pattern of that name. -/
theorem longestPattern_slashed {p : Bytes × Bytes × (Bytes → Route)} (hp : p ∈ routes)
    {name : Bytes} (hname : name ∈ patternNames) (hpattern : p.1 = slashed name) (tail : Bytes) :
    longestPattern (slashed name ++ tail) routes = some p := by
  refine longestPattern_eq hp (by rw [hpattern]; exact List.prefix_append _ _) fun q hq hstarts => ?_
  rcases pattern_cases hq with hroot | ⟨name', hname', hq'⟩
  · right
    rw [hroot, hpattern, slashed_length]
    show 1 < name.length + 2
    omega
  · left
    rw [← hq'] at hstarts
    have heq := slashed_inj (slash_not_mem_patternNames name' hname')
      (slash_not_mem_patternNames name hname) hstarts
    rw [heq, ← hpattern] at hq'
    exact List.inj_on_of_nodup_map routes_nodup hq hp hq'.symm

/-- The route that the longest pattern takes. -/
def chosen (path : Bytes) : Route :=
  (longestPattern path routes).elim .notFound fun p => p.2.2 path

/-! ### The grammar -/

/-- The names of notes and filters, with the bytes that may follow and the body. -/
def anchoredBodies : List (Bytes × (UInt8 → Bool) × (Bytes → Route)) :=
  let prepare (name : Bytes) (digits : Bytes) : Route := .preparePostHandler name (atoi digits)
  [(ascii "EditNote", isDigit, prepare (ascii "EditNote")),
    (ascii "DeleteNote", isDigit, prepare (ascii "DeleteNote")),
    (ascii "PasteBinNote", isDigit, prepare (ascii "PasteBinNote")),
    (ascii "Note", isDigit, fun digits => .noteDetailsHandler (atoi digits)),
    (ascii "SaveNote", isDigit, fun digits => .saveNoteHandler (atoi digits)),
    (ascii "ConfirmDeleteNote", isDigit, fun digits => .deleteNoteHandler (atoi digits)),
    (ascii "ConfirmPasteBinNote", isDigit, fun digits => .pasteBinNoteHandler (atoi digits)),
    (ascii "TitleFilter", isFilterByte, .titleFilterHandler),
    (ascii "TextFilter", isFilterByte, .textFilterHandler),
    (ascii "BothFilter", isFilterByte, .bothFilterHandler)]

/-- The paths that stand for themselves. -/
def plainBodies : List (Bytes × Route) :=
  [(ascii "/", .indexHandler), (ascii "/AddNote/", .addNoteHandler),
    (ascii "/NewNote/", .newNoteHandler)]

/-- **The URL grammar**: the path names the handler body. -/
inductive Grammar : Bytes → Route → Prop
  | plain {path : Bytes} {route : Route} (h : (path, route) ∈ plainBodies) : Grammar path route
  | anchored {name tail : Bytes} {cls : UInt8 → Bool} {f : Bytes → Route}
      (h : (name, cls, f) ∈ anchoredBodies) (hne : tail ≠ []) (hcls : ∀ b ∈ tail, cls b = true) :
      Grammar (slashed name ++ tail) (f tail)

theorem anchoredBodies_names : ∀ name ∈ anchoredBodies.map Prod.fst, name ∈ patternNames := by
  decide

theorem anchoredBodies_nodup : (anchoredBodies.map Prod.fst).Nodup := by decide

/-- A pattern whose wrapper captures. -/
theorem chosen_captured (name : Bytes) {p : Bytes × Bytes × (Bytes → Route)} (hp : p ∈ routes)
    (hname : name ∈ patternNames) (hpattern : p.1 = slashed name)
    {valid : Bytes → Option (Bytes × Bytes)} (f : Bytes → Bytes → Route)
    (hroute : p.2.2 = fun path => captured f (valid path)) {cls : UInt8 → Bool}
    (hvalid : ∀ tail, valid (slashed name ++ tail) =
      if tail ≠ [] ∧ tail.all cls = true then some (name, tail) else none) (tail : Bytes) :
    chosen (slashed name ++ tail) =
      if tail ≠ [] ∧ tail.all cls = true then f name tail else .notFound := by
  rw [chosen, longestPattern_slashed hp hname hpattern, Option.elim_some, hroute]
  dsimp only
  rw [hvalid]
  split <;> rfl

theorem validPreparePostPath_slashed {name : Bytes}
    (hname : name ∈ [ascii "DeleteNote", ascii "EditNote", ascii "PasteBinNote"]) (tail : Bytes) :
    validPreparePostPath (slashed name ++ tail) =
      if tail ≠ [] ∧ tail.all isDigit = true then some (name, tail) else none :=
  findStringSubmatch_slashed (by decide) hname isDigit tail

theorem validNotePath_slashed {name : Bytes}
    (hname : name ∈ [ascii "Note", ascii "ConfirmDeleteNote", ascii "SaveNote",
      ascii "ConfirmPasteBinNote"]) (tail : Bytes) :
    validNotePath (slashed name ++ tail) =
      if tail ≠ [] ∧ tail.all isDigit = true then some (name, tail) else none :=
  findStringSubmatch_slashed (by decide) hname isDigit tail

theorem validFilterPath_slashed {name : Bytes}
    (hname : name ∈ [ascii "TitleFilter", ascii "TextFilter", ascii "BothFilter"]) (tail : Bytes) :
    validFilterPath (slashed name ++ tail) =
      if tail ≠ [] ∧ tail.all isFilterByte = true then some (name, tail) else none :=
  findStringSubmatch_slashed (by decide) hname isFilterByte tail

/-- **The wrappers of notes and filters follow the grammar.** -/
theorem chosen_anchored : ∀ b ∈ anchoredBodies, ∀ tail, chosen (slashed b.1 ++ tail) =
    if tail ≠ [] ∧ tail.all b.2.1 = true then b.2.2 tail else .notFound := by
  simp only [anchoredBodies, List.forall_mem_cons]
  refine ⟨?_, ?_, ?_, ?_, ?_, ?_, ?_, ?_, ?_, ?_, by simp⟩
  · exact chosen_captured (ascii "EditNote") (List.mem_of_getElem? (i := 3) rfl) (by decide)
      (by decide) (fun name digits => .preparePostHandler name (atoi digits)) rfl
      (validPreparePostPath_slashed (by decide))
  · exact chosen_captured (ascii "DeleteNote") (List.mem_of_getElem? (i := 4) rfl) (by decide)
      (by decide) (fun name digits => .preparePostHandler name (atoi digits)) rfl
      (validPreparePostPath_slashed (by decide))
  · exact chosen_captured (ascii "PasteBinNote") (List.mem_of_getElem? (i := 5) rfl) (by decide)
      (by decide) (fun name digits => .preparePostHandler name (atoi digits)) rfl
      (validPreparePostPath_slashed (by decide))
  · exact chosen_captured (ascii "Note") (List.mem_of_getElem? (i := 6) rfl) (by decide)
      (by decide) (fun _ digits => .noteDetailsHandler (atoi digits)) rfl
      (validNotePath_slashed (by decide))
  · exact chosen_captured (ascii "SaveNote") (List.mem_of_getElem? (i := 7) rfl) (by decide)
      (by decide) (fun _ digits => .saveNoteHandler (atoi digits)) rfl
      (validNotePath_slashed (by decide))
  · exact chosen_captured (ascii "ConfirmDeleteNote") (List.mem_of_getElem? (i := 8) rfl) (by decide)
      (by decide) (fun _ digits => .deleteNoteHandler (atoi digits)) rfl
      (validNotePath_slashed (by decide))
  · exact chosen_captured (ascii "ConfirmPasteBinNote") (List.mem_of_getElem? (i := 9) rfl) (by decide)
      (by decide) (fun _ digits => .pasteBinNoteHandler (atoi digits)) rfl
      (validNotePath_slashed (by decide))
  · exact chosen_captured (ascii "TitleFilter") (List.mem_of_getElem? (i := 10) rfl) (by decide)
      (by decide) (fun _ input => .titleFilterHandler input) rfl
      (validFilterPath_slashed (by decide))
  · exact chosen_captured (ascii "TextFilter") (List.mem_of_getElem? (i := 11) rfl) (by decide)
      (by decide) (fun _ input => .textFilterHandler input) rfl
      (validFilterPath_slashed (by decide))
  · exact chosen_captured (ascii "BothFilter") (List.mem_of_getElem? (i := 12) rfl) (by decide)
      (by decide) (fun _ input => .bothFilterHandler input) rfl
      (validFilterPath_slashed (by decide))

/-! ### The patterns that are not anchored -/

theorem validPath_slash (path : Bytes) : validPath (47 :: path) = true := by
  rw [validPath, List.contains_cons]
  simp

/-- The other two patterns take every path that starts with them. -/
theorem chosen_plain : ∀ b ∈ [(ascii "AddNote", Route.addNoteHandler),
    (ascii "NewNote", Route.newNoteHandler)], ∀ tail, chosen (slashed b.1 ++ tail) = b.2 := by
  simp only [List.forall_mem_cons]
  refine ⟨fun tail => ?_, fun tail => ?_, by simp⟩
  · rw [chosen, longestPattern_slashed (List.mem_of_getElem? (i := 1) rfl) (by decide) (by decide),
      Option.elim_some, slashed_append]
    exact if_pos (validPath_slash _)
  · rw [chosen, longestPattern_slashed (List.mem_of_getElem? (i := 2) rfl) (by decide) (by decide),
      Option.elim_some, slashed_append]
    exact if_pos (validPath_slash _)

/-- The root takes every path that no other pattern takes. -/
theorem chosen_root {path : Bytes} (hnone : ∀ name ∈ patternNames, ¬slashed name <+: 47 :: path) :
    chosen (47 :: path) = .indexHandler := by
  have hroot : ascii "/" <+: 47 :: path := ⟨path, rfl⟩
  rw [chosen, longestPattern_eq (List.mem_of_getElem? (i := 0) rfl) hroot, Option.elim_some]
  · exact if_pos (validPath_slash path)
  · intro q hq hstarts
    left
    rcases pattern_cases hq with heq | ⟨name, hname, hq'⟩
    · exact List.inj_on_of_nodup_map routes_nodup hq (List.mem_of_getElem? (i := 0) rfl) heq
    · rw [← hq'] at hstarts
      exact absurd hstarts (hnone name hname)

/-- Outside of the root nothing is registered. -/
theorem chosen_outside {path : Bytes} (hroot : ¬ascii "/" <+: path) : chosen path = .notFound := by
  rw [chosen, longestPattern_eq_none, Option.elim_none]
  intro p hp hstarts
  rcases pattern_cases hp with heq | ⟨name, _, hname⟩
  · rw [heq] at hstarts
    exact hroot hstarts
  · rw [← hname] at hstarts
    have hslash : ascii "/" <+: slashed name := ⟨name ++ ascii "/", by rw [slashed, List.append_assoc]⟩
    exact hroot (hslash.trans hstarts)

/-! ### The server and the grammar -/

/-- The function of the longest registered pattern, applied to the request. -/
def dispatch (env : Env) (request : Request) : Prog Response :=
  (longestPattern request.path (registered env)).elim (pure .notFound) fun p => p.2 request

/-- What is left to do when the rate limiter lets a request through. -/
def letThrough : Prog Response → Prog Response
  | .call .tooManyRequests k => k false
  | p => p

/-- A request that the mux does not redirect is dispatched. -/
theorem serveHTTP_eq_dispatch {env : Env} {request : Request}
    (h : muxRedirect ((registered env).map Prod.fst) request.path = none) :
    serveHTTP env request = dispatch env request := by
  rw [serveHTTP, h, Option.elim_none]
  rfl

/-- **A request that is let through is handled by the body of its route.** -/
theorem letThrough_dispatch (env : Env) (request : Request) :
    letThrough (dispatch env request) = (chosen request.path).body env request.form := by
  rw [dispatch, chosen, registered_eq]
  rcases longestPattern_cases env request routes with ⟨hserve, hroute⟩ | ⟨p, hserve, hroute⟩
  · rw [hserve, hroute]
    rfl
  · rw [hserve, hroute]
    rfl

/-- A path of the grammar is handled by the body it names, and any other path is
answered 404 without a body. -/
def FollowsGrammar (env : Env) (request : Request) : Prop :=
  (∀ route, Grammar request.path route →
    letThrough (dispatch env request) = route.body env request.form) ∧
  ((∀ route, ¬Grammar request.path route) →
    letThrough (dispatch env request) = pure .notFound)

/-- Under the root, the path is one of those that stand for themselves, or starts
with the name of a note or filter handler. -/
def Anchored (path : Bytes) : Prop :=
  ascii "/" <+: path → path ∈ plainBodies.map Prod.fst ∨
    ∃ name ∈ anchoredBodies.map Prod.fst, slashed name <+: path

/-- The paths of the grammar that start with an anchored name. -/
theorem grammar_slashed_iff {b : Bytes × (UInt8 → Bool) × (Bytes → Route)}
    (hb : b ∈ anchoredBodies) {tail : Bytes} {route : Route} :
    Grammar (slashed b.1 ++ tail) route ↔
      (tail ≠ [] ∧ tail.all b.2.1 = true) ∧ route = b.2.2 tail := by
  have hname : 47 ∉ b.1 := slash_not_mem_patternNames _
    (anchoredBodies_names _ (List.mem_map_of_mem hb))
  constructor
  · intro h
    generalize hpath : slashed b.1 ++ tail = path at h
    cases h with
    | plain hplain =>
      have hno : ∀ name ∈ anchoredBodies.map Prod.fst, ∀ p ∈ plainBodies.map Prod.fst,
          ¬slashed name <+: p := by decide
      exact absurd ⟨tail, hpath⟩
        (hno _ (List.mem_map_of_mem hb) _ (List.mem_map_of_mem hplain))
    | @anchored name tail' cls f hmem hne hcls =>
      have hname' : 47 ∉ name := slash_not_mem_patternNames _
        (anchoredBodies_names name (List.mem_map_of_mem hmem))
      obtain ⟨heq, htail⟩ := slashed_append_inj hname hname' hpath
      have hbody := List.inj_on_of_nodup_map anchoredBodies_nodup hb hmem heq
      rw [hbody, htail, List.all_eq_true]
      exact ⟨⟨hne, hcls⟩, rfl⟩
  · rintro ⟨⟨hne, hall⟩, rfl⟩
    exact .anchored hb hne (List.all_eq_true.mp hall)

theorem plain_of_grammar {path : Bytes} {route : Route} (h : Grammar path route)
    (hno : ∀ name ∈ anchoredBodies.map Prod.fst, ¬slashed name <+: path) :
    (path, route) ∈ plainBodies := by
  cases h with
  | plain hplain => exact hplain
  | anchored hmem _ _ => exact absurd (List.prefix_append _ _) (hno _ (List.mem_map_of_mem hmem))

theorem root_of_grammar {path : Bytes} {route : Route} (h : Grammar path route) :
    ascii "/" <+: path := by
  cases h with
  | plain hplain =>
    have hall : ∀ p ∈ plainBodies.map Prod.fst, ascii "/" <+: p := by decide
    exact hall _ (List.mem_map_of_mem hplain)
  | @anchored name tail cls f hmem hne hcls =>
    rw [slashed_append]
    exact ⟨_, rfl⟩

/-- The bodies that are reached without an anchored name. -/
theorem chosen_unanchored {path : Bytes} (hroot : ascii "/" <+: path)
    (hno : ∀ name ∈ anchoredBodies.map Prod.fst, ¬slashed name <+: path) :
    chosen path = .indexHandler ∨ chosen path = .addNoteHandler ∨
      chosen path = .newNoteHandler := by
  have hnames : ∀ name ∈ patternNames, name = ascii "AddNote" ∨ name = ascii "NewNote" ∨
      name ∈ anchoredBodies.map Prod.fst := by decide
  by_cases hadd : slashed (ascii "AddNote") <+: path
  · obtain ⟨tail, rfl⟩ := hadd
    exact Or.inr (Or.inl (chosen_plain _ (List.mem_of_getElem? (i := 0) rfl) tail))
  · by_cases hnew : slashed (ascii "NewNote") <+: path
    · obtain ⟨tail, rfl⟩ := hnew
      exact Or.inr (Or.inr (chosen_plain _ (List.mem_of_getElem? (i := 1) rfl) tail))
    · left
      obtain ⟨rest, rfl⟩ := hroot
      apply chosen_root
      intro name hname
      rcases hnames name hname with rfl | rfl | hanchored
      · exact hadd
      · exact hnew
      · exact hno name hanchored

theorem body_ne_notFound {env : Env} {form : Form} {route : Route}
    (h : route = .indexHandler ∨ route = .addNoteHandler ∨ route = .newNoteHandler) :
    route.body env form ≠ pure .notFound := by
  rcases h with rfl | rfl | rfl
  · intro h
    cases h
  · intro h
    cases h
  · intro h
    change checkToken form _ _ = Program.ret Response.notFound at h
    rw [checkToken] at h
    cases htoken : submittedToken form with
    | error err =>
      rw [htoken] at h
      exact absurd (Program.ret.inj h) (by simp [internalServerError])
    | ok token =>
      rw [htoken] at h
      cases h

/-- **The server accepts exactly its grammar at the anchored paths.** -/
theorem followsGrammar_iff (env : Env) (request : Request) :
    FollowsGrammar env request ↔ Anchored request.path := by
  obtain ⟨path, form⟩ := request
  rw [FollowsGrammar, letThrough_dispatch]
  dsimp only
  by_cases hroot : ascii "/" <+: path
  · by_cases hname : ∃ name ∈ anchoredBodies.map Prod.fst, slashed name <+: path
    · -- the wrapper checks the rest of the path
      refine iff_of_true ?_ fun _ => Or.inr hname
      obtain ⟨name, hmem, tail, rfl⟩ := hname
      obtain ⟨b, hb, rfl⟩ := List.mem_map.mp hmem
      rw [chosen_anchored b hb]
      constructor
      · intro route hgrammar
        obtain ⟨htail, rfl⟩ := (grammar_slashed_iff hb).mp hgrammar
        rw [if_pos htail]
      · intro hnone
        rw [if_neg fun htail => hnone _ ((grammar_slashed_iff hb).mpr ⟨htail, rfl⟩)]
        rfl
    · have hno : ∀ name ∈ anchoredBodies.map Prod.fst, ¬slashed name <+: path :=
        fun name hmem hstarts => hname ⟨name, hmem, hstarts⟩
      have hplain : ∀ p ∈ plainBodies, chosen p.1 = p.2 := by decide
      constructor
      · intro ⟨_, hnone⟩ _
        left
        by_contra hnot
        refine body_ne_notFound (chosen_unanchored hroot hno) (hnone fun route hgrammar => ?_)
        exact hnot (List.mem_map_of_mem (plain_of_grammar hgrammar hno))
      · intro hanchored
        obtain ⟨⟨p, route⟩, hp, rfl⟩ := List.mem_map.mp ((hanchored hroot).resolve_right hname)
        constructor
        · intro route' hgrammar
          rw [hplain _ (plain_of_grammar hgrammar hno)]
        · intro hnone
          exact absurd (.plain hp) (hnone route)
  · refine iff_of_true ⟨fun route hgrammar => absurd (root_of_grammar hgrammar) hroot, ?_⟩
      fun h => absurd h hroot
    intro _
    rw [chosen_outside hroot]
    rfl

/-- A path that no handler is written for shows the index. -/
theorem unknownPath_shows_index :
    letThrough (dispatch quiet ⟨ascii "/foo", []⟩) = Route.indexHandler.body quiet [] ∧
      ∀ route, ¬Grammar (ascii "/foo") route := by
  constructor
  · have hchosen : chosen (ascii "/foo") = .indexHandler := by decide
    rw [letThrough_dispatch, hchosen]
  · intro route hgrammar
    have hno : ∀ name ∈ anchoredBodies.map Prod.fst, ¬slashed name <+: ascii "/foo" := by decide
    have hplain : ∀ p ∈ plainBodies, p.1 ≠ ascii "/foo" := by decide
    exact hplain _ (plain_of_grammar hgrammar hno) rfl

end ShareNotes.UrlGrammar
