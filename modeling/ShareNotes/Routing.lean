import ShareNotes.Handlers

/-!
# From a path to a handler

`http.ServeMux` redirects a path that is not clean or lacks the last slash of a
pattern, and hands any other request to the function registered under the longest
pattern that is a prefix of its path. Each function is a handler inside a
wrapper that asks the rate limiter, matches the path against the wrapper's own
regular expression, and passes on what the expression captured.

`routed` says in one place which handler body runs for a path, and
`serveHTTP_cases` that the registered functions do just that.
-/

namespace ShareNotes.Routing

open ShareNotes.Lib.Decimal ShareNotes.Lib.Interaction
open ShareNotes.NoteRecord ShareNotes.Linkify ShareNotes.Manager ShareNotes.Calls
open ShareNotes.Handlers
open Program

structure Request where
  path : Bytes
  form : Form

/-! ### The wrappers -/

/-- The first two captures of `^/(name|..)/(c+)$`, where `c` is a class of bytes. -/
def findStringSubmatch (names : List Bytes) (cls : UInt8 → Bool) (path : Bytes) :
    Option (Bytes × Bytes) :=
  names.findSome? fun name =>
    match (ascii "/" ++ name ++ ascii "/").isPrefixOf path,
      path.drop (name.length + 2) with
    | true, b :: rest => if (b :: rest).all cls then some (name, b :: rest) else none
    | _, _ => none

/-- `strconv.Atoi` of a string of digits with its error dropped: a number that
does not fit into an `int` becomes the largest one. -/
def atoi (digits : Bytes) : ℤ :=
  match parseUint (2 ^ 63) digits with
  | .ok n => n
  | .error .errRange => 2 ^ 63 - 1
  | .error .errSyntax => 0

/-- Ask the rate limiter before anything else. -/
def limited (message : Bytes) (rest : Prog Response) : Prog Response := do
  let tooMany ← Prog.tooManyRequests
  if tooMany then pure (.httpError (.text message) 429) else rest

def validNotePath : Bytes → Option (Bytes × Bytes) :=
  findStringSubmatch
    [ascii "Note", ascii "ConfirmDeleteNote", ascii "SaveNote", ascii "ConfirmPasteBinNote"] isDigit

def makeNoteIDHandler (function : Form → ℤ → Prog Response) (request : Request) : Prog Response :=
  limited (ascii "429 TooManyRequests: Slow down, buddy!")
    (match validNotePath request.path with
      | none => pure .notFound
      | some urlTokens => function request.form (atoi urlTokens.2))

/-- `[0-9a-zA-Z ]`. -/
def isFilterByte (b : UInt8) : Bool :=
  isDigit b || (97 ≤ b.toNat && b.toNat ≤ 122) || (65 ≤ b.toNat && b.toNat ≤ 90) || b == 32

def validFilterPath : Bytes → Option (Bytes × Bytes) :=
  findStringSubmatch [ascii "TitleFilter", ascii "TextFilter", ascii "BothFilter"] isFilterByte

def makeFilterHandler (function : Bytes → Prog Response) (request : Request) : Prog Response :=
  limited (ascii "Slow down, buddy!")
    (match validFilterPath request.path with
      | none => pure .notFound
      | some urlTokens => function urlTokens.2)

def validPreparePostPath : Bytes → Option (Bytes × Bytes) :=
  findStringSubmatch [ascii "DeleteNote", ascii "EditNote", ascii "PasteBinNote"] isDigit

def makePreparePostHandler (function : Bytes → ℤ → Prog Response) (request : Request) :
    Prog Response :=
  limited (ascii "Slow down, buddy!")
    (match validPreparePostPath request.path with
      | none => pure .notFound
      | some urlTokens => function urlTokens.1 (atoi urlTokens.2))

/-- `(^/(AddNote|NewNote)/$|/)`: the second alternative is not anchored. -/
def validPath (path : Bytes) : Bool :=
  path == ascii "/AddNote/" || path == ascii "/NewNote/" || path.contains 47

def makeHandler (function : Form → Prog Response) (request : Request) : Prog Response :=
  limited (ascii "Slow down, buddy!")
    (if validPath request.path then function request.form else pure .notFound)

/-! ### The registered functions -/

/-- The registrations of `main`, in their order. -/
def registered (env : Env) : List (Bytes × (Request → Prog Response)) :=
  let toHtml := noteToHtmlNote env.findAllString env.fuel
  [(ascii "/", makeHandler fun _ => indexHandler toHtml),
    (ascii "/AddNote/", makeHandler fun _ => addNoteHandler),
    (ascii "/NewNote/", makeHandler newNoteHandler),
    (ascii "/EditNote/", makePreparePostHandler preparePostHandler),
    (ascii "/DeleteNote/", makePreparePostHandler preparePostHandler),
    (ascii "/PasteBinNote/", makePreparePostHandler preparePostHandler),
    (ascii "/Note/", makeNoteIDHandler fun _ => noteDetailsHandler toHtml),
    (ascii "/SaveNote/", makeNoteIDHandler saveNoteHandler),
    (ascii "/ConfirmDeleteNote/", makeNoteIDHandler deleteNoteHandler),
    (ascii "/ConfirmPasteBinNote/", makeNoteIDHandler pasteBinNoteHandler),
    (ascii "/TitleFilter/", makeFilterHandler (titleFilterHandler toHtml)),
    (ascii "/TextFilter/", makeFilterHandler (textFilterHandler toHtml)),
    (ascii "/BothFilter/", makeFilterHandler (bothFilterHandler toHtml))]

/-- The longest pattern that is a prefix of the path; of two equally long ones, the first. -/
def longestPattern {α : Type} (path : Bytes) : List (Bytes × α) → Option (Bytes × α)
  | [] => none
  | p :: ps =>
    match longestPattern path ps with
    | none => if p.1.isPrefixOf path then some p else none
    | some q => if p.1.isPrefixOf path && q.1.length ≤ p.1.length then some p else some q

/-- One step of `path.Clean`; the segments kept so far are in reverse order. -/
def cleanSegment (kept : List Bytes) (segment : Bytes) : List Bytes :=
  if segment = [] ∨ segment = ascii "." then kept
  else if segment = ascii ".." then kept.tail
  else segment :: kept

/-- The rooted path without empty, `.` and `..` segments; a last slash stays. -/
def cleanPath (path : Bytes) : Bytes :=
  let kept := (path.splitOn 47).foldl cleanSegment []
  let np := ascii "/" ++ (ascii "/").intercalate kept.reverse
  if path.getLast? = some 47 ∧ kept ≠ [] then np ++ ascii "/" else np

/-- Where the mux itself redirects a request. -/
def muxRedirect (patterns : List Bytes) (path : Bytes) : Option Bytes :=
  if cleanPath path ≠ path then some (cleanPath path)
  else if path ++ ascii "/" ∈ patterns then some (path ++ ascii "/")
  else none

/-- What the server does with a request. -/
def serveHTTP (env : Env) (request : Request) : Prog Response :=
  (muxRedirect ((registered env).map Prod.fst) request.path).elim
    ((longestPattern request.path (registered env)).elim (pure .notFound) fun p => p.2 request)
    fun url => pure (.movedPermanently url)

/-! ### Which handler body runs -/

/-- A handler body with the arguments that its wrapper passes on. -/
inductive Route
  | indexHandler
  | addNoteHandler
  | newNoteHandler
  | preparePostHandler (urlName : Bytes) (noteID : ℤ)
  | noteDetailsHandler (noteID : ℤ)
  | saveNoteHandler (noteID : ℤ)
  | deleteNoteHandler (noteID : ℤ)
  | pasteBinNoteHandler (noteID : ℤ)
  | titleFilterHandler (filterInput : Bytes)
  | textFilterHandler (filterInput : Bytes)
  | bothFilterHandler (filterInput : Bytes)
  | notFound
  deriving DecidableEq

def Route.body (env : Env) (form : Form) : Route → Prog Response
  | .indexHandler => Handlers.indexHandler (noteToHtmlNote env.findAllString env.fuel)
  | .addNoteHandler => Handlers.addNoteHandler
  | .newNoteHandler => Handlers.newNoteHandler form
  | .preparePostHandler urlName noteID => Handlers.preparePostHandler urlName noteID
  | .noteDetailsHandler noteID =>
    Handlers.noteDetailsHandler (noteToHtmlNote env.findAllString env.fuel) noteID
  | .saveNoteHandler noteID => Handlers.saveNoteHandler form noteID
  | .deleteNoteHandler noteID => Handlers.deleteNoteHandler form noteID
  | .pasteBinNoteHandler noteID => Handlers.pasteBinNoteHandler form noteID
  | .titleFilterHandler filterInput =>
    Handlers.titleFilterHandler (noteToHtmlNote env.findAllString env.fuel) filterInput
  | .textFilterHandler filterInput =>
    Handlers.textFilterHandler (noteToHtmlNote env.findAllString env.fuel) filterInput
  | .bothFilterHandler filterInput =>
    Handlers.bothFilterHandler (noteToHtmlNote env.findAllString env.fuel) filterInput
  | .notFound => pure .notFound

/-- The route that a wrapper takes when its expression captured two strings. -/
def captured (f : Bytes → Bytes → Route) : Option (Bytes × Bytes) → Route
  | none => .notFound
  | some urlTokens => f urlTokens.1 urlTokens.2

/-- The wrappers as functions of the path, with the message of the rate limiter. -/
def routes : List (Bytes × Bytes × (Bytes → Route)) :=
  let slow := ascii "Slow down, buddy!"
  let slow429 := ascii "429 TooManyRequests: Slow down, buddy!"
  let plain (route : Route) (path : Bytes) := if validPath path then route else .notFound
  let prepare (path : Bytes) :=
    captured (fun name digits => .preparePostHandler name (atoi digits)) (validPreparePostPath path)
  let byID (f : ℤ → Route) (path : Bytes) :=
    captured (fun _ digits => f (atoi digits)) (validNotePath path)
  let filter (f : Bytes → Route) (path : Bytes) :=
    captured (fun _ input => f input) (validFilterPath path)
  [(ascii "/", slow, plain .indexHandler),
    (ascii "/AddNote/", slow, plain .addNoteHandler),
    (ascii "/NewNote/", slow, plain .newNoteHandler),
    (ascii "/EditNote/", slow, prepare),
    (ascii "/DeleteNote/", slow, prepare),
    (ascii "/PasteBinNote/", slow, prepare),
    (ascii "/Note/", slow429, byID .noteDetailsHandler),
    (ascii "/SaveNote/", slow429, byID .saveNoteHandler),
    (ascii "/ConfirmDeleteNote/", slow429, byID .deleteNoteHandler),
    (ascii "/ConfirmPasteBinNote/", slow429, byID .pasteBinNoteHandler),
    (ascii "/TitleFilter/", slow, filter .titleFilterHandler),
    (ascii "/TextFilter/", slow, filter .textFilterHandler),
    (ascii "/BothFilter/", slow, filter .bothFilterHandler)]

/-- The route that a path takes; no body runs for a path that the mux redirects
or that no pattern matches. -/
def routed (path : Bytes) : Route :=
  (muxRedirect (routes.map Prod.fst) path).elim
    ((longestPattern path routes).elim .notFound fun p => p.2.2 path)
    fun _ => .notFound

/-- A wrapper's message and route, as the function that it registers. -/
def serveRoute (env : Env) (q : Bytes × (Bytes → Route)) (request : Request) : Prog Response :=
  limited q.1 ((q.2 request.path).body env request.form)

theorem makeHandler_eq (env : Env) (route : Route) :
    makeHandler (fun form => route.body env form) = serveRoute env
      (ascii "Slow down, buddy!", fun path => if validPath path then route else .notFound) := by
  funext request
  rw [makeHandler, serveRoute]
  dsimp only
  split <;> rfl

theorem makePreparePostHandler_eq (env : Env) :
    makePreparePostHandler preparePostHandler = serveRoute env
      (ascii "Slow down, buddy!", fun path =>
        captured (fun name digits => .preparePostHandler name (atoi digits))
          (validPreparePostPath path)) := by
  funext request
  rw [makePreparePostHandler, serveRoute]
  dsimp only
  cases validPreparePostPath request.path <;> rfl

theorem makeNoteIDHandler_eq (env : Env) (f : ℤ → Route) :
    makeNoteIDHandler (fun form noteID => (f noteID).body env form) = serveRoute env
      (ascii "429 TooManyRequests: Slow down, buddy!", fun path =>
        captured (fun _ digits => f (atoi digits)) (validNotePath path)) := by
  funext request
  rw [makeNoteIDHandler, serveRoute]
  dsimp only
  cases validNotePath request.path <;> rfl

theorem makeFilterHandler_eq (env : Env) (f : Bytes → Route) (g : Bytes → Prog Response)
    (hg : ∀ input form, (f input).body env form = g input) :
    makeFilterHandler g = serveRoute env
      (ascii "Slow down, buddy!", fun path =>
        captured (fun _ input => f input) (validFilterPath path)) := by
  funext request
  rw [makeFilterHandler, serveRoute]
  dsimp only
  cases validFilterPath request.path with
  | none => rfl
  | some urlTokens => exact congrArg _ (hg urlTokens.2 request.form).symm

/-- **The registered functions follow the routes.** -/
theorem registered_eq (env : Env) :
    registered env = routes.map fun p => (p.1, serveRoute env p.2) := by
  have hprepare := makePreparePostHandler_eq env
  simp only [registered, routes, List.map_cons, List.map_nil, List.cons.injEq, Prod.mk.injEq,
    true_and, and_true]
  exact ⟨makeHandler_eq env .indexHandler, makeHandler_eq env .addNoteHandler,
    makeHandler_eq env .newNoteHandler, hprepare, hprepare, hprepare,
    makeNoteIDHandler_eq env .noteDetailsHandler, makeNoteIDHandler_eq env .saveNoteHandler,
    makeNoteIDHandler_eq env .deleteNoteHandler, makeNoteIDHandler_eq env .pasteBinNoteHandler,
    makeFilterHandler_eq env .titleFilterHandler _ fun _ _ => rfl,
    makeFilterHandler_eq env .textFilterHandler _ fun _ _ => rfl,
    makeFilterHandler_eq env .bothFilterHandler _ fun _ _ => rfl⟩

theorem longestPattern_map {α β : Type} (f : α → β) (path : Bytes) (ps : List (Bytes × α)) :
    longestPattern path (ps.map fun p => (p.1, f p.2)) =
      (longestPattern path ps).map fun p => (p.1, f p.2) := by
  induction ps with
  | nil => rfl
  | cons p ps ih =>
    rw [List.map_cons, longestPattern, longestPattern, ih]
    cases longestPattern path ps with
    | none =>
      simp only [Option.map_none]
      split <;> rfl
    | some q =>
      simp only [Option.map_some]
      split <;> rfl

/-- A pattern's function is served under the message and the route of its wrapper. -/
theorem longestPattern_cases (env : Env) (request : Request)
    (ps : List (Bytes × Bytes × (Bytes → Route))) :
    (longestPattern request.path (ps.map fun p => (p.1, serveRoute env p.2)) = none ∧
      longestPattern request.path ps = none) ∨
      ∃ p, longestPattern request.path (ps.map fun p => (p.1, serveRoute env p.2)) =
          some (p.1, serveRoute env p.2) ∧
        longestPattern request.path ps = some p := by
  rw [longestPattern_map (serveRoute env)]
  cases longestPattern request.path ps with
  | none => exact Or.inl ⟨rfl, rfl⟩
  | some p => exact Or.inr ⟨p, rfl, rfl⟩

theorem patterns_eq (env : Env) : (registered env).map Prod.fst = routes.map Prod.fst := by
  rw [registered_eq, List.map_map]
  rfl

/-- **What the server does with a request**: an answer without any call when no
body runs for its path, or the rate limiter and then the body that the path is
routed to. -/
theorem serveHTTP_cases (env : Env) (request : Request) :
    (routed request.path = .notFound ∧
      (serveHTTP env request = pure .notFound ∨
        ∃ url, serveHTTP env request = pure (.movedPermanently url))) ∨
      ∃ message, serveHTTP env request =
        limited message ((routed request.path).body env request.form) := by
  have hcases := longestPattern_cases env request routes
  rw [← registered_eq] at hcases
  have hpatterns := patterns_eq env
  cases hmux : muxRedirect (routes.map Prod.fst) request.path with
  | some url =>
    left
    constructor
    · rw [routed, hmux, Option.elim_some]
    · right
      exact ⟨url, by rw [serveHTTP, hpatterns, hmux, Option.elim_some]⟩
  | none =>
    rcases hcases with ⟨hserve, hroute⟩ | ⟨p, hserve, hroute⟩
    · left
      constructor
      · rw [routed, hmux, hroute, Option.elim_none, Option.elim_none]
      · left
        rw [serveHTTP, hpatterns, hmux, hserve, Option.elim_none, Option.elim_none]
    · right
      have hrouted : routed request.path = p.2.2 request.path := by
        rw [routed, hmux, hroute, Option.elim_none, Option.elim_some]
      rw [serveHTTP, hpatterns, hmux, hserve, Option.elim_none, Option.elim_some, hrouted]
      exact ⟨p.2.1, rfl⟩

example : routed (ascii "/SaveNote/12") = .saveNoteHandler 12 := by decide

example : routed (ascii "/AddNote/12") = .addNoteHandler := by decide

example : routed (ascii "/SaveNote/x/../12") = .notFound := by decide

end ShareNotes.Routing
