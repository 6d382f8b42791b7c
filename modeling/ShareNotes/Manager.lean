import ShareNotes.Lib.KeyedRows
import ShareNotes.Lib.Slices
import ShareNotes.NoteRecord

/-!
# The database manager

The notes table, the statements run on it, and the methods of `DatabaseManager`.
Every call of `database/sql` can fail, and which ones do is given to a method as
its outcome, so a theorem about all outcomes covers every pattern of failures.

A write runs in a transaction that stays open until it is committed, and becomes
part of the store exactly when its commit succeeds. A listing is written into
the manager's own slice, which the caller is handed.
-/

namespace ShareNotes.Manager

open ShareNotes.Lib.Decimal ShareNotes.Lib.KeyedRows ShareNotes.Lib.Slices ShareNotes.NoteRecord

/-- Error values that reach a response. -/
inductive GoError
  | numError (func num : Bytes) (err : NumErr)
  | noRows
  | external (text : Bytes)
  deriving DecidableEq

/-! ### The table and the writing statements -/

/-- A row of the notes table without its `noteID`; dates are in seconds. -/
structure Entry where
  title : Bytes
  text : Bytes
  addDate : ℤ
  changeDate : ℤ
  deriving DecidableEq

abbrev NotesTable := RowTable Entry

/-- The writing statements with the values bound to them. -/
inductive Write
  | addNoteExec (title text : Bytes) (addDate changeDate : ℤ)
  | updateNoteExec (title text : Bytes) (changeDate : ℤ) (noteID : Bytes)
  | deleteNoteExec (noteID : Bytes)
  deriving DecidableEq

/-- The effect of a statement. The `noteID` is bound as a text and compared as an integer. -/
def Write.apply : Write → NotesTable → NotesTable
  | .addNoteExec title text addDate changeDate, notes =>
    notes.insert ⟨title, text, addDate, changeDate⟩
  | .updateNoteExec title text changeDate noteID, notes =>
    match integerAffinity noteID with
    | some k => notes.modify k fun e =>
        { e with title := title, text := text, changeDate := changeDate }
    | none => notes
  | .deleteNoteExec noteID, notes =>
    match integerAffinity noteID with
    | some k => notes.erase k
    | none => notes

/-! ### Transactions -/

/-- The notes, the writes committed so far, the number of transactions begun, and
those of them that were neither committed nor rolled back. -/
structure Database where
  notes : NotesTable
  journal : List Write
  begun : ℕ
  openTransactions : List ℕ
  open_lt : ∀ id ∈ openTransactions, id < begun

/-- A database on which no transaction was begun yet. -/
def Database.opened (notes : NotesTable) : Database := ⟨notes, [], 0, [], by simp⟩

/-- The errors of the four calls of a writing method. -/
structure TxOutcome where
  beginErr : Option GoError
  prepareErr : Option GoError
  execErr : Option GoError
  commitErr : Option GoError

/-- Every call succeeds. -/
def TxOutcome.ok : TxOutcome := ⟨none, none, none, none⟩

/-- `db.Begin()`: a new transaction, open from now on, under the next number. -/
def Database.begin (db : Database) : ℕ × Database :=
  (db.begun,
    { db with
      begun := db.begun + 1
      openTransactions := db.begun :: db.openTransactions
      open_lt := by
        intro id hid
        rcases List.mem_cons.mp hid with h | h
        · omega
        · have := db.open_lt id h
          omega })

/-- `transaction.Commit()` of a transaction that executed `w`. -/
def Database.commit (db : Database) (transaction : ℕ) (w : Write) (commitErr : Option GoError) :
    Database :=
  let db := { db with
    openTransactions := db.openTransactions.erase transaction
    open_lt := fun id hid => db.open_lt id (List.mem_of_mem_erase hid) }
  match commitErr with
  | none => { db with notes := w.apply db.notes, journal := db.journal ++ [w] }
  | some _ => db

/-- The common body of `AddNote`, `UpdateNote` and `DeleteNote`. The result of
`Commit` is not looked at, and the error returned last is that of `Exec`. -/
def Database.execWrite (db : Database) (o : TxOutcome) (w : Write) : Option GoError × Database :=
  match o.beginErr with
  | some err => (some err, db)
  | none =>
    match o.prepareErr with
    | some err => (some err, db.begin.2)
    | none =>
      match o.execErr with
      | some err => (some err, db.begin.2)
      | none => (none, db.begin.2.commit db.begin.1 w o.commitErr)

def Database.addNote (db : Database) (o : TxOutcome) (n : Note) : Option GoError × Database :=
  db.execWrite o (.addNoteExec n.title n.text (unix n.addDate) (unix n.changeDate))

def Database.updateNote (db : Database) (o : TxOutcome) (n : Note) : Option GoError × Database :=
  db.execWrite o (.updateNoteExec n.title n.text (unix n.changeDate) (itoa n.noteID))

def Database.deleteNote (db : Database) (o : TxOutcome) (noteID : ℤ) : Option GoError × Database :=
  db.execWrite o (.deleteNoteExec (itoa noteID))

/-! ### Looking up one note -/

/-- The errors of `Prepare` and of `QueryRow(..).Scan(..)`, a missing row apart. -/
structure LookupOutcome where
  prepareErr : Option GoError
  scanErr : Option GoError

def LookupOutcome.ok : LookupOutcome := ⟨none, none⟩

def Database.getNote (db : Database) (o : LookupOutcome) (noteID : ℤ) : Except GoError Note :=
  match o.prepareErr with
  | some err => .error err
  | none =>
    match o.scanErr with
    | some err => .error err
    | none =>
      match (integerAffinity (itoa noteID)).bind db.notes.lookup with
      | none => .error .noRows
      | some e =>
        .ok (Note.newLocal noteID e.title e.text (ofUnix e.addDate) (ofUnix e.changeDate))

/-! ### Listing notes -/

/-- A row of a result set; `none` is NULL. -/
structure ResultRow where
  noteID : Option ℤ
  title : Option Bytes
  text : Option Bytes
  addDate : Option ℤ
  changeDate : Option ℤ
  deriving DecidableEq

def Entry.columns (k : ℤ) (e : Entry) : ResultRow :=
  ⟨some k, some e.title, some e.text, some e.addDate, some e.changeDate⟩

/-- The variables that a row is scanned into. -/
structure RowVars where
  noteID : ℤ := 0
  title : Bytes := []
  text : Bytes := []
  addDate : ℤ := 0
  changeDate : ℤ := 0

/-- One column of a `Scan`: it is stored unless it is NULL or its conversion fails. -/
def convertAssign {α : Type} (fails : Bool) (column : Option α) : Option α :=
  if fails then none else column

/-- `rows.Scan`: the columns in order, up to the first that is not stored, whose
index makes the error. -/
def scanRow (fails : ℕ → Bool) (row : ResultRow) : RowVars × Option ℕ :=
  match convertAssign (fails 0) row.noteID with
  | none => ({}, some 0)
  | some noteID =>
    match convertAssign (fails 1) row.title with
    | none => ({ noteID }, some 1)
    | some title =>
      match convertAssign (fails 2) row.text with
      | none => ({ noteID, title }, some 2)
      | some text =>
        match convertAssign (fails 3) row.addDate with
        | none => ({ noteID, title, text }, some 3)
        | some addDate =>
          match convertAssign (fails 4) row.changeDate with
          | none => ({ noteID, title, text, addDate }, some 4)
          | some changeDate => ({ noteID, title, text, addDate, changeDate }, none)

/-- The failures of a listing: of `Prepare` and `Query`, of `rows.Next` (the
iteration stops after so many rows), and of `rows.Scan` by row and column. -/
structure ListOutcome where
  prepareErr : Option GoError
  queryErr : Option GoError
  stopsAfter : Option ℕ
  scanFails : ℕ → ℕ → Bool

def ListOutcome.ok : ListOutcome := ⟨none, none, none, fun _ _ => false⟩

/-- The rows that `rows.Next` delivers. -/
def ListOutcome.delivered (o : ListOutcome) (rows : List ResultRow) : List ResultRow :=
  match o.stopsAfter with
  | none => rows
  | some k => rows.take k

/-- The notes that the loop over the rows appends; the result of `Scan` is not looked at. -/
def ListOutcome.notesRead (o : ListOutcome) (rows : List ResultRow) : List Note :=
  (o.delivered rows).mapIdx fun i row =>
    let v := (scanRow (o.scanFails i) row).1
    Note.newLocal v.noteID v.title v.text (ofUnix v.addDate) (ofUnix v.changeDate)

/-- `order by changeDate desc`; rows with the same date stay in the order of their keys. -/
def orderByChangeDateDesc (rows : List (ℤ × Entry)) : List (ℤ × Entry) :=
  rows.insertionSort fun p q => q.2.changeDate ≤ p.2.changeDate

/-- ASCII letters are compared without case. -/
def foldCase (b : UInt8) : UInt8 := if 65 ≤ b.toNat && b.toNat ≤ 90 then b + 32 else b

/-- What follows a character that starts with `b`. -/
def skipUtf8 (b : UInt8) (s : Bytes) : Bytes :=
  if 192 ≤ b.toNat then s.dropWhile fun c => c.toNat / 64 == 2 else s

/-- `text like pattern`. -/
def like : Bytes → Bytes → Bool
  | [], s => s.isEmpty
  | c :: pattern, s =>
    if c = 37 then s.tails.any fun t => like pattern t
    else
      match s with
      | [] => false
      | b :: s => if c = 95 then like pattern (skipUtf8 b s)
        else foldCase b == foldCase c && like pattern s

/-- The queries that list notes; the last three take parameters. -/
inductive SelectQuery
  | selectNotesQS
  | selectNotesWhereTitleQS
  | selectNotesWhereTextQS
  | selectNotesWhereBothQS
  deriving DecidableEq

/-- The number of `?` in a query. -/
def SelectQuery.numInput : SelectQuery → ℕ
  | .selectNotesQS => 0
  | .selectNotesWhereTitleQS => 1
  | .selectNotesWhereTextQS => 1
  | .selectNotesWhereBothQS => 2

/-- The `where` condition of a query under its parameters. -/
def SelectQuery.condition : SelectQuery → List Bytes → Entry → Bool
  | .selectNotesQS, _, _ => true
  | .selectNotesWhereTitleQS, params, e => like (params.getD 0 []) e.title
  | .selectNotesWhereTextQS, params, e => like (params.getD 0 []) e.text
  | .selectNotesWhereBothQS, params, e =>
    like (params.getD 0 []) e.title || like (params.getD 1 []) e.text

/-- The result set of a query, which needs as many parameters as it has `?`. -/
def SelectQuery.rows (q : SelectQuery) (params : List Bytes) (notes : NotesTable) :
    Except GoError (List ResultRow) :=
  if params.length = q.numInput then
    .ok ((orderByChangeDateDesc (notes.rows.filter fun r => q.condition params r.2)).map
      fun r => r.2.columns r.1)
  else
    .error (.external (ascii "sql: expected " ++ formatDecimal q.numInput ++
      ascii " arguments, got " ++ formatDecimal params.length))

/-- The slice in `notes` is shared by all listings. -/
structure DatabaseManager where
  notes : Slice
  db : Database

/-- The loop over a result set, and the return of the manager's slice. -/
def DatabaseManager.appendRows (dbm : DatabaseManager) (g : Growth) (heap : Heap Note)
    (o : ListOutcome) (rows : Except GoError (List ResultRow)) :
    (Slice × Option GoError) × Heap Note × DatabaseManager :=
  match rows with
  | .error err =>
    ((⟨dbm.notes.array, 0⟩, some err), heap, { dbm with notes := ⟨dbm.notes.array, 0⟩ })
  | .ok rows =>
    let p := heap.rewrite g dbm.notes (o.notesRead rows)
    ((p.2, none), p.1, { dbm with notes := p.2 })

/-- What `Query` returns: its own failure, or the result set. -/
def ListOutcome.query (o : ListOutcome) (q : SelectQuery) (params : List Bytes)
    (notes : NotesTable) : Except GoError (List ResultRow) :=
  match o.queryErr with
  | some err => .error err
  | none => q.rows params notes

def DatabaseManager.loadNotes (dbm : DatabaseManager) (g : Growth) (heap : Heap Note)
    (o : ListOutcome) : (Slice × Option GoError) × Heap Note × DatabaseManager :=
  dbm.appendRows g heap o (o.query .selectNotesQS [] dbm.db.notes)

/-- When the statement cannot be prepared the caller gets an empty slice of its own. -/
def DatabaseManager.loadNotesWhere (dbm : DatabaseManager) (g : Growth) (heap : Heap Note)
    (o : ListOutcome) (whereClause : SelectQuery) (whereParameters : List Bytes) :
    (Slice × Option GoError) × Heap Note × DatabaseManager :=
  match o.prepareErr with
  | some err =>
    ((⟨heap.arrays.length, 0⟩, some err), ⟨heap.arrays ++ [[]]⟩,
      { dbm with notes := ⟨dbm.notes.array, 0⟩ })
  | none => dbm.appendRows g heap o (o.query whereClause whereParameters dbm.db.notes)

end ShareNotes.Manager
