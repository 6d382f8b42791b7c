import ShareNotes.Manager

/-!
# Opening the database

`Open` runs the listing query to see whether the database can be used, and when
the query fails it goes on to `initializeDB`. That removes a file which is not the
database, opens the database again without looking at the error, and creates the
notes table; its result is dropped, and what `Open` returns is the error of its
own first call, which is none by then.

So `Open` reports success whenever its first call succeeds and the second does
not leave it without a database. A notes table with other columns survives every
start, and the server runs on it without a statement that can be prepared.
-/

namespace ShareNotes.OpenDatabase

open ShareNotes.Lib.Decimal ShareNotes.Manager

/-! ### Database files -/

/-- A table, with the names of its columns and its rows. -/
structure Table where
  name : Bytes
  columns : List Bytes
  rows : List (List (Option Bytes))
  deriving DecidableEq

/-- The databases in the working directory, by the names of their files. -/
abbrev Disk := Bytes → Option (List Table)

def dbFileName : Bytes := ascii "sndb.db"

/-- The tables of the database. A file that is absent or empty has none. -/
def tables (disk : Disk) : List Table := (disk dbFileName).getD []

/-- Names are compared without case. -/
def sameName (s t : Bytes) : Bool := s.map foldCase == t.map foldCase

def findTable (name : Bytes) (ts : List Table) : Option Table :=
  ts.find? fun t => sameName t.name name

def Table.hasColumn (t : Table) (column : Bytes) : Bool := t.columns.any fun c => sameName c column

/-! ### The statements of the manager -/

/-- What a statement names: its table, and columns in the order in which they are looked up. -/
structure Statement where
  table : Bytes
  columns : List Bytes
  deriving DecidableEq

def noteColumns : List Bytes :=
  [ascii "noteID", ascii "title", ascii "text", ascii "addDate", ascii "changeDate"]

def selectNotesQS : Statement := ⟨ascii "notes", noteColumns ++ [ascii "changeDate"]⟩

def lookupNoteQS : Statement :=
  ⟨ascii "notes",
    [ascii "title", ascii "text", ascii "addDate", ascii "changeDate", ascii "noteID"]⟩

def selectNotesWhereTitleQS : Statement :=
  ⟨ascii "notes", noteColumns ++ [ascii "title", ascii "changeDate"]⟩

def selectNotesWhereTextQS : Statement :=
  ⟨ascii "notes", noteColumns ++ [ascii "text", ascii "changeDate"]⟩

def selectNotesWhereBothQS : Statement :=
  ⟨ascii "notes", noteColumns ++ [ascii "title", ascii "text", ascii "changeDate"]⟩

def addNoteExec : Statement :=
  ⟨ascii "notes", [ascii "title", ascii "text", ascii "addDate", ascii "changeDate"]⟩

def updateNoteExec : Statement :=
  ⟨ascii "notes", [ascii "title", ascii "text", ascii "changeDate", ascii "noteID"]⟩

def deleteNoteExec : Statement := ⟨ascii "notes", [ascii "noteID"]⟩

def statements : List Statement :=
  [selectNotesQS, lookupNoteQS, selectNotesWhereTitleQS, selectNotesWhereTextQS,
    selectNotesWhereBothQS, addNoteExec, updateNoteExec, deleteNoteExec]

/-- The table of a statement is there, with the columns that it names. -/
def Preparable (ts : List Table) (st : Statement) : Prop :=
  ∃ t, findTable st.table ts = some t ∧ ∀ c ∈ st.columns, t.hasColumn c = true

/-- The error of a query before it is run. -/
def query (ts : List Table) (st : Statement) : Option GoError :=
  match findTable st.table ts with
  | none => some (.external (ascii "no such table: " ++ st.table))
  | some t => (st.columns.find? fun c => !t.hasColumn c).map fun c =>
      .external (ascii "no such column: " ++ c)

/-- The table that `INITIALIZE_NOTES_TABLE_EXEC` creates. -/
def notesTable : Table := ⟨ascii "notes", noteColumns, []⟩

/-- `create table notes (..)`. -/
def initializeNotesTableExec (ts : List Table) : Except GoError (List Table) :=
  match findTable (ascii "notes") ts with
  | some _ => .error (.external (ascii "table notes already exists"))
  | none => .ok (ts ++ [notesTable])

/-! ### Opening -/

/-- How the calls of `Open` end: the two calls of `sql.Open`, the query and the
creation of the table, whose own errors come on top of those of the statements,
and whether `os.Remove` removes its file. -/
structure OpenOutcome where
  openErr : Option GoError
  queryErr : Option GoError
  removed : Bool
  reopenErr : Option GoError
  createErr : Option GoError

def OpenOutcome.ok : OpenOutcome := ⟨none, none, true, none, none⟩

/-- How a call of `Open` ends. -/
inductive OpenResult
  | returned (err : Option GoError)
  | logFatal (err : GoError)
  | nilDereference
  deriving DecidableEq

/-- The error of the query; the rows that it delivers are read and dropped. -/
def checkDBValidity (o : OpenOutcome) (disk : Disk) : Option GoError :=
  match o.queryErr with
  | some err => some err
  | none => query (tables disk) selectNotesQS

def removeFile (name : Bytes) (removed : Bool) (disk : Disk) : Disk :=
  if removed then Function.update disk name none else disk

/-- `dbm.db.Exec(INITIALIZE_NOTES_TABLE_EXEC)`. -/
def execInitialize (createErr : Option GoError) (disk : Disk) : Option GoError × Disk :=
  match createErr with
  | some err => (some err, disk)
  | none =>
    match initializeNotesTableExec (tables disk) with
    | .error err => (some err, disk)
    | .ok ts => (none, Function.update disk dbFileName (some ts))

/-- The result is `none` when `sql.Open` left no database to call `Exec` on. -/
def initializeDB (o : OpenOutcome) (disk : Disk) : Option (Option GoError) × Disk :=
  let disk := removeFile (ascii "foo.db") o.removed disk
  match o.reopenErr with
  | some _ => (none, disk)
  | none =>
    let p := execInitialize o.createErr disk
    (some p.1, p.2)

/-- `Open`. When the query has failed, `err` is still the one of `sql.Open`. -/
def openDB (o : OpenOutcome) (disk : Disk) : OpenResult × Disk :=
  match o.openErr with
  | some err => (.logFatal err, disk)
  | none =>
    match checkDBValidity o disk with
    | none => (.returned none, disk)
    | some _ =>
      let p := initializeDB o disk
      (p.1.elim .nilDereference fun _ => .returned none, p.2)

/-- What becomes of `main`. -/
inductive MainStep
  | serves
  | stops (err : GoError)
  | crashes
  deriving DecidableEq

/-- `main` behind its call of `Open`; `log.Fatal` stops it with the error wherever it is called. -/
def mainAfterOpen : OpenResult → MainStep
  | .returned none => .serves
  | .returned (some err) => .stops err
  | .logFatal err => .stops err
  | .nilDereference => .crashes

/-! ### What is expected -/

/-- Every statement of the manager can be prepared. -/
def Usable (disk : Disk) : Prop := ∀ st ∈ statements, Preparable (tables disk) st

/-- The rows of the notes table. -/
def noteRows (disk : Disk) : List (List (Option Bytes)) :=
  (findTable (ascii "notes") (tables disk)).elim [] Table.rows

/-- Success means that the database can be used and kept its notes; anything else
stops the server with an error. -/
structure Lawful (disk : Disk) (p : OpenResult × Disk) : Prop where
  usable : p.1 = .returned none → Usable p.2
  kept : p.1 = .returned none → ∀ row ∈ noteRows disk, row ∈ noteRows p.2
  stops : p.1 ≠ .returned none → ∃ err, mainAfterOpen p.1 = .stops err

/-! ### Statements that can be prepared -/

theorem query_eq_none_iff (ts : List Table) (st : Statement) :
    query ts st = none ↔ Preparable ts st := by
  rw [query, Preparable]
  cases hfind : findTable st.table ts with
  | none => simp
  | some t =>
    dsimp only
    rw [Option.map_eq_none_iff, List.find?_eq_none]
    constructor
    · intro h
      refine ⟨t, rfl, fun c hc => ?_⟩
      have hcolumn := h c hc
      rw [Bool.not_eq_true', Bool.not_eq_false] at hcolumn
      exact hcolumn
    · rintro ⟨t', ht', hcolumns⟩ c hc
      rw [Option.some.inj ht', hcolumns c hc]
      exact Bool.false_ne_true

/-- The columns of the listing query are all that any statement names. -/
theorem statements_columns : ∀ st ∈ statements, st.table = ascii "notes" ∧
    ∀ c ∈ st.columns, c ∈ selectNotesQS.columns := by
  decide

/-- **What the check of the database tells**: the listing query can be prepared
exactly when all statements can. -/
theorem usable_iff (disk : Disk) : Usable disk ↔ Preparable (tables disk) selectNotesQS := by
  constructor
  · exact fun h => h selectNotesQS List.mem_cons_self
  · rintro ⟨t, hfind, hcolumns⟩ st hst
    obtain ⟨htable, hnamed⟩ := statements_columns st hst
    refine ⟨t, ?_, fun c hc => hcolumns c (hnamed c hc)⟩
    rw [htable]
    exact hfind

theorem checkDBValidity_eq_none_iff (o : OpenOutcome) (disk : Disk) :
    checkDBValidity o disk = none ↔ o.queryErr = none ∧ Usable disk := by
  rw [checkDBValidity, usable_iff, ← query_eq_none_iff]
  cases o.queryErr with
  | none => exact ⟨fun h => ⟨rfl, h⟩, fun h => h.2⟩
  | some err => exact ⟨fun h => absurd h (by simp), fun h => absurd h.1 (by simp)⟩

/-! ### What is left of the file -/

/-- The file that is removed is not the database. -/
theorem tables_removeFile (removed : Bool) (disk : Disk) :
    tables (removeFile (ascii "foo.db") removed disk) = tables disk := by
  have hne : dbFileName ≠ ascii "foo.db" := by decide
  rw [removeFile]
  split
  · rw [tables, Function.update_of_ne hne]
    rfl
  · rfl

/-- A table with the name of the notes keeps the creation from doing anything. -/
theorem execInitialize_exists {disk : Disk} {t : Table}
    (h : findTable (ascii "notes") (tables disk) = some t) (createErr : Option GoError) :
    (execInitialize createErr disk).2 = disk := by
  cases createErr with
  | some err => rfl
  | none => simp only [execInitialize, initializeNotesTableExec, h]

/-- Without one, the table is created unless the call fails. -/
theorem findTable_execInitialize {disk : Disk}
    (h : findTable (ascii "notes") (tables disk) = none) (createErr : Option GoError) :
    findTable (ascii "notes") (tables (execInitialize createErr disk).2) =
      if createErr = none then some notesTable else none := by
  cases createErr with
  | some err => exact h
  | none =>
    simp only [execInitialize, initializeNotesTableExec, h]
    rw [if_pos trivial, tables, Function.update_self, Option.getD_some, findTable, List.find?_append]
    rw [findTable] at h
    rw [h]
    decide

/-- **The notes table after `Open`**: the one that was there, or one that was created. -/
theorem findTable_openDB (o : OpenOutcome) (disk : Disk) :
    findTable (ascii "notes") (tables (openDB o disk).2) =
      match findTable (ascii "notes") (tables disk) with
      | some t => some t
      | none =>
        if o.openErr = none ∧ o.reopenErr = none ∧ o.createErr = none then some notesTable
        else none := by
  rw [openDB]
  cases hopen : o.openErr with
  | some err =>
    dsimp only
    cases findTable (ascii "notes") (tables disk) with
    | some t => rfl
    | none => rw [if_neg fun h => absurd h.1 (by simp)]
  | none =>
    dsimp only
    cases hcheck : checkDBValidity o disk with
    | none =>
      obtain ⟨t, hfind, _⟩ := (usable_iff disk).mp ((checkDBValidity_eq_none_iff o disk).mp hcheck).2
      have hfind' : findTable (ascii "notes") (tables disk) = some t := hfind
      dsimp only
      rw [hfind']
    | some err =>
      have htables := tables_removeFile o.removed disk
      simp only [initializeDB]
      cases hreopen : o.reopenErr with
      | some err =>
        dsimp only
        rw [htables]
        cases findTable (ascii "notes") (tables disk) with
        | some t => rfl
        | none => rw [if_neg fun h => absurd h.2.1 (by simp)]
      | none =>
        dsimp only
        cases hfind : findTable (ascii "notes") (tables disk) with
        | some t =>
          have hfind' : findTable (ascii "notes")
              (tables (removeFile (ascii "foo.db") o.removed disk)) = some t := by
            rw [htables]
            exact hfind
          rw [execInitialize_exists hfind', hfind']
        | none =>
          rw [findTable_execInitialize (by rw [htables]; exact hfind)]
          dsimp only
          simp only [true_and]

/-- **No row of the notes is lost.** -/
theorem noteRows_openDB (o : OpenOutcome) (disk : Disk) :
    ∀ row ∈ noteRows disk, row ∈ noteRows (openDB o disk).2 := by
  intro row hrow
  rw [noteRows, findTable_openDB]
  rw [noteRows] at hrow
  cases hfind : findTable (ascii "notes") (tables disk) with
  | some t =>
    rw [hfind] at hrow
    exact hrow
  | none =>
    rw [hfind] at hrow
    exact absurd hrow List.not_mem_nil

theorem usable_openDB_iff (o : OpenOutcome) (disk : Disk) : Usable (openDB o disk).2 ↔
    Usable disk ∨ (findTable (ascii "notes") (tables disk) = none ∧ o.openErr = none ∧
      o.reopenErr = none ∧ o.createErr = none) := by
  rw [usable_iff, usable_iff, Preparable, Preparable]
  have htable : selectNotesQS.table = ascii "notes" := rfl
  rw [htable, findTable_openDB]
  have hcreated : ∀ c ∈ selectNotesQS.columns, notesTable.hasColumn c = true := by decide +kernel
  cases findTable (ascii "notes") (tables disk) with
  | some t => simp
  | none =>
    dsimp only
    split
    · rename_i h
      exact iff_of_true ⟨_, rfl, hcreated⟩ (Or.inr ⟨rfl, h⟩)
    · rename_i h
      exact iff_of_false (fun h' => absurd h'.choose_spec.1 (by simp)) (by simp [h])

/-! ### What is reported -/

theorem openDB_returned_iff (o : OpenOutcome) (disk : Disk) :
    (openDB o disk).1 = .returned none ↔
      o.openErr = none ∧ ((o.queryErr = none ∧ Usable disk) ∨ o.reopenErr = none) := by
  rw [openDB]
  cases o.openErr with
  | some err => simp
  | none =>
    rw [← checkDBValidity_eq_none_iff]
    cases checkDBValidity o disk with
    | none => simp
    | some err =>
      simp only [initializeDB]
      cases o.reopenErr <;> simp

/-- Anything but success stops `main` with an error when it is the first call that fails. -/
theorem openDB_stops_iff (o : OpenOutcome) (disk : Disk) :
    ((openDB o disk).1 ≠ .returned none → ∃ err, mainAfterOpen (openDB o disk).1 = .stops err) ↔
      o.openErr ≠ none ∨ (openDB o disk).1 = .returned none := by
  rw [openDB]
  cases o.openErr with
  | some err => simp [mainAfterOpen]
  | none =>
    cases checkDBValidity o disk with
    | none => simp
    | some err =>
      simp only [initializeDB]
      cases o.reopenErr <;> simp [mainAfterOpen]

/-- **When `Open` does what it reports.** -/
theorem openDB_lawful_iff (o : OpenOutcome) (disk : Disk) :
    Lawful disk (openDB o disk) ↔
      o.openErr ≠ none ∨ (Usable disk ∧ (o.queryErr = none ∨ o.reopenErr = none)) ∨
        (findTable (ascii "notes") (tables disk) = none ∧ o.reopenErr = none ∧
          o.createErr = none) := by
  have hlawful : Lawful disk (openDB o disk) ↔
      ((openDB o disk).1 = .returned none → Usable (openDB o disk).2) ∧
        (o.openErr ≠ none ∨ (openDB o disk).1 = .returned none) := by
    rw [← openDB_stops_iff]
    exact ⟨fun h => ⟨h.usable, h.stops⟩,
      fun h => ⟨h.1, fun _ => noteRows_openDB o disk, h.2⟩⟩
  rw [hlawful, usable_openDB_iff, openDB_returned_iff]
  by_cases hopen : o.openErr = none
  · rw [hopen]
    tauto
  · exact iff_of_true ⟨fun h => absurd h.1 hopen, Or.inl hopen⟩ (Or.inl hopen)

/-- A notes table with other columns, and no call fails. -/
def otherColumns : Disk :=
  Function.update (fun _ => none) dbFileName
    (some [⟨ascii "notes", [ascii "id", ascii "body"], [[some (ascii "1"), some (ascii "milk")]]⟩])

/-- `Open` succeeds on it, the server starts, and no note can be added. -/
theorem otherColumns_opens :
    mainAfterOpen (openDB .ok otherColumns).1 = .serves ∧
      ¬Preparable (tables (openDB .ok otherColumns).2) addNoteExec ∧
      ¬Lawful otherColumns (openDB .ok otherColumns) := by
  have hadd : ¬Preparable (tables (openDB .ok otherColumns).2) addNoteExec := by
    rw [← query_eq_none_iff]
    decide +kernel
  have hopens : (openDB .ok otherColumns).1 = .returned none := by decide +kernel
  refine ⟨by rw [hopens]; rfl, hadd, fun h => hadd (h.usable hopens addNoteExec (by decide))⟩

/-! ### Start after start -/

/-- The files after several starts of the server. -/
def diskAfter : List OpenOutcome → Disk → Disk
  | [], disk => disk
  | o :: os, disk => diskAfter os (openDB o disk).2

/-- **A notes table is never replaced**, however often the server is started. -/
theorem findTable_diskAfter {disk : Disk} {t : Table}
    (h : findTable (ascii "notes") (tables disk) = some t) (os : List OpenOutcome) :
    findTable (ascii "notes") (tables (diskAfter os disk)) = some t := by
  induction os generalizing disk with
  | nil => exact h
  | cons o os ih =>
    refine ih ?_
    rw [findTable_openDB, h]

/-- A database that can be used stays one, and one whose notes table has other
columns is not repaired by any start. -/
theorem usable_diskAfter_iff {disk : Disk} {t : Table}
    (h : findTable (ascii "notes") (tables disk) = some t) (os : List OpenOutcome) :
    Usable (diskAfter os disk) ↔ Usable disk := by
  rw [usable_iff, usable_iff, Preparable, Preparable]
  have htable : selectNotesQS.table = ascii "notes" := rfl
  rw [htable, findTable_diskAfter h, h]

end ShareNotes.OpenDatabase
