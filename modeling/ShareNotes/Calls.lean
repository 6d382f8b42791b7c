import ShareNotes.Lib.Interaction
import ShareNotes.Token
import ShareNotes.Linkify
import ShareNotes.Manager

/-!
# What the handlers call on

A handler is a program over the calls below: readings of the clock, the token
manager, the database manager, one read of an element of a slice, the execution
of a template into the response, and the start of curl. `World` is the state of
the process that these calls read and change, and `Env` is everything outside of
it: the readings of the clock and of the source of randomness, the calls that
fail, and the pattern that finds links.

The environment answers by the number of calls made so far, or by the request
where the answer is about the request's connection, so one `Env` fixes a run and
a theorem about every `Env` covers all of them.
-/

namespace ShareNotes.Calls

open ShareNotes.Lib.Decimal ShareNotes.Lib.Slices ShareNotes.Lib.Interaction
open ShareNotes.Token ShareNotes.NoteRecord ShareNotes.Linkify ShareNotes.Manager

/-! ### Pages -/

structure HtmlTable where
  notes : List HtmlNote
  filtered : Bool
  deriving DecidableEq

/-- The data that a template is executed on. -/
inductive PageData
  | htmlTable (table : HtmlTable)
  | addNoteData (token : SynchronizedToken)
  | htmlNote (note : HtmlNote)
  | confirmNoteData (note : Note) (token : SynchronizedToken)
  deriving DecidableEq

structure Page where
  template : Bytes
  data : PageData
  deriving DecidableEq

/-- The files that `templates` was parsed from. -/
def templates : List Bytes :=
  [ascii "index.html", ascii "AddNote.html", ascii "Note.html", ascii "DeleteNote.html",
    ascii "PasteBinNote.html", ascii "EditNote.html"]

/-! ### Calls and their results -/

inductive Call
  | now
  | tooManyRequests
  | generateSynchronizedToken
  | synchronizedTokenIsValid (token : SynchronizedToken)
  | addNote (n : Note)
  | updateNote (n : Note)
  | deleteNote (noteID : ℤ)
  | getNote (noteID : ℤ)
  | loadNotes
  | loadNotesWhere (whereClause : SelectQuery) (whereParameters : List Bytes)
  | index (notes : Slice) (i : ℕ)
  | executeTemplate (page : Page)
  | runCurl (args : List Bytes)
  | hang

/-- A call of a loop that does not end has no result. -/
abbrev Call.Result : Call → Type
  | .now => Time
  | .tooManyRequests => Bool
  | .generateSynchronizedToken => SynchronizedToken
  | .synchronizedTokenIsValid _ => Bool
  | .addNote _ => Option GoError
  | .updateNote _ => Option GoError
  | .deleteNote _ => Option GoError
  | .getNote _ => Except GoError Note
  | .loadNotes => Slice × Option GoError
  | .loadNotesWhere _ _ => Slice × Option GoError
  | .index _ _ => Note
  | .executeTemplate _ => Option GoError
  | .runCurl _ => Except GoError Bytes
  | .hang => Empty

/-! ### The rate limiter -/

/-- Arithmetic of `int64`. -/
def wrapInt64 (x : ℤ) : ℤ := Int.bmod x (2 ^ 64)

def minInt64 : ℤ := -2 ^ 63

def tooManyRequestTimeSpanInNs : ℤ := 1000

/-- The answer, and `lastRequestTime` afterwards. -/
def tooManyRequests (lastRequestTime currentTime : ℤ) : Bool × ℤ :=
  if minInt64 < lastRequestTime ∧
      wrapInt64 (currentTime - lastRequestTime) ≤ tooManyRequestTimeSpanInNs then
    (true, lastRequestTime)
  else (false, currentTime)

/-! ### The environment and the state -/

structure Env where
  clock : ℕ → Time
  int63 : ℕ → Int63
  fuel : ℕ
  findAllString : Bytes → List Bytes
  growth : Growth
  txOutcome : ℕ → TxOutcome
  lookupOutcome : ℕ → LookupOutcome
  listOutcome : ℕ → ListOutcome
  writeErr : ℕ → Option GoError
  curl : ℕ → Except GoError Bytes

/-- The database calls all succeed. -/
structure Env.DatabaseSucceeds (env : Env) : Prop where
  tx : ∀ k, env.txOutcome k = TxOutcome.ok
  lookup : ∀ k, env.lookupOutcome k = LookupOutcome.ok
  list : ∀ k, env.listOutcome k = ListOutcome.ok

/-- The variables of the process, and the numbers of draws and of calls made so far. -/
structure World where
  dbManager : DatabaseManager
  heap : Heap Note
  sidManager : SessionIDManager
  drawn : ℕ
  lastRequestTime : ℤ
  calls : ℕ

/-- The state in which the server starts on a table of notes. -/
def World.initial (notes : NotesTable) : World where
  dbManager := ⟨⟨0, 0⟩, Database.opened notes⟩
  heap := ⟨[[]]⟩
  sidManager := SessionIDManager.initial
  drawn := 0
  lastRequestTime := minInt64
  calls := 0

/-- The notes table. -/
abbrev World.notes (w : World) : NotesTable := w.dbManager.db.notes

/-- One more call was made. -/
def World.tick (w : World) : World := { w with calls := w.calls + 1 }

def World.setDb (w : World) (db : Database) : World :=
  { w with dbManager := { w.dbManager with db := db } }

def World.setListing (w : World) (heap : Heap Note) (dbManager : DatabaseManager) : World :=
  { w with heap := heap, dbManager := dbManager }

/-- How the calls of request `t` are answered. -/
def handle (env : Env) (t : ℕ) : (c : Call) → World → Option (c.Result × World)
  | .now, w => some (env.clock w.calls, w.tick)
  | .tooManyRequests, w =>
    let p := Calls.tooManyRequests w.lastRequestTime (wrapInt64 (env.clock w.calls))
    some (p.1, { w.tick with lastRequestTime := p.2 })
  | .generateSynchronizedToken, w =>
    (w.sidManager.generateSynchronizedToken env.int63 env.fuel w.drawn).map fun p =>
      (p.1, { w.tick with sidManager := p.2.1, drawn := p.2.2 })
  | .synchronizedTokenIsValid token, w =>
    some (w.sidManager.synchronizedTokenIsValid token, w.tick)
  | .addNote n, w =>
    let p := w.dbManager.db.addNote (env.txOutcome w.calls) n
    some (p.1, w.tick.setDb p.2)
  | .updateNote n, w =>
    let p := w.dbManager.db.updateNote (env.txOutcome w.calls) n
    some (p.1, w.tick.setDb p.2)
  | .deleteNote noteID, w =>
    let p := w.dbManager.db.deleteNote (env.txOutcome w.calls) noteID
    some (p.1, w.tick.setDb p.2)
  | .getNote noteID, w =>
    some (w.dbManager.db.getNote (env.lookupOutcome w.calls) noteID, w.tick)
  | .loadNotes, w =>
    let p := w.dbManager.loadNotes env.growth w.heap (env.listOutcome w.calls)
    some (p.1, w.tick.setListing p.2.1 p.2.2)
  | .loadNotesWhere whereClause whereParameters, w =>
    let p := w.dbManager.loadNotesWhere env.growth w.heap (env.listOutcome w.calls)
      whereClause whereParameters
    some (p.1, w.tick.setListing p.2.1 p.2.2)
  | .index notes i, w => (w.heap.index notes i).map fun n => (n, w.tick)
  | .executeTemplate page, w =>
    if page.template ∈ templates then some (env.writeErr t, w.tick)
    else
      some (some (.external (ascii "html/template: \"" ++ page.template ++
        ascii "\" is undefined")), w.tick)
  | .runCurl _, w => some (env.curl w.calls, w.tick)
  | .hang, _ => none

/-- The programs of the server. -/
abbrev Prog := Program Call Call.Result

namespace Prog

abbrev now : Prog Time := .call .now .ret

abbrev tooManyRequests : Prog Bool := .call .tooManyRequests .ret

abbrev generateSynchronizedToken : Prog SynchronizedToken := .call .generateSynchronizedToken .ret

abbrev synchronizedTokenIsValid (token : SynchronizedToken) : Prog Bool :=
  .call (.synchronizedTokenIsValid token) .ret

abbrev addNote (n : Note) : Prog (Option GoError) := .call (.addNote n) .ret

abbrev updateNote (n : Note) : Prog (Option GoError) := .call (.updateNote n) .ret

abbrev deleteNote (noteID : ℤ) : Prog (Option GoError) := .call (.deleteNote noteID) .ret

abbrev getNote (noteID : ℤ) : Prog (Except GoError Note) := .call (.getNote noteID) .ret

abbrev loadNotes : Prog (Slice × Option GoError) := .call .loadNotes .ret

abbrev loadNotesWhere (whereClause : SelectQuery) (whereParameters : List Bytes) :
    Prog (Slice × Option GoError) := .call (.loadNotesWhere whereClause whereParameters) .ret

abbrev index (notes : Slice) (i : ℕ) : Prog Note := .call (.index notes i) .ret

abbrev executeTemplate (page : Page) : Prog (Option GoError) := .call (.executeTemplate page) .ret

abbrev runCurl (args : List Bytes) : Prog (Except GoError Bytes) := .call (.runCurl args) .ret

/-- The program that never returns. -/
abbrev hang {α : Type} : Prog α := .call .hang Empty.elim

end Prog

/-- The calls that were made in a run. -/
abbrev Trace := List (Event Call Call.Result World)

end ShareNotes.Calls
